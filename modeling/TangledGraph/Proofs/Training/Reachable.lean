import TangledGraph.Proofs.Graph.Decision
import TangledGraph.Proofs.Training.Generation
import TangledGraph.Proofs.Training.Interactions

/-!
# Reachable trainers

A trainer is reachable if it comes of valid settings by any calls that return,
with any words drawn and any environments, errors included. Every reachable
trainer is sound: it starts so, a report changes no edge, and a generation ends
as it began.
-/
namespace TangledGraph

open Draw

theorem Stock.Steady.congr {allowed : Action → Prop} {p q : Population} {c : Counters}
    (h : Stock.Steady allowed ⟨p, c⟩) (same : q.outline = p.outline) :
    Stock.Steady allowed ⟨q, c⟩ := by
  have teams : q.containsTeam = p.containsTeam := congrArg Outline.teams same
  have teamsOf : q.teamsOf = p.teamsOf := congrArg Outline.teamsOf same
  have policy : q.policy? = p.policy? := congrArg Outline.policy? same
  refine ⟨⟨same ▸ h.sound.exact, same ▸ h.sound.below⟩, ?_, ?_, ?_⟩
  · intro l program action hl
    exact h.allowed ((congrFun policy l).symm.trans hl)
  · intro t ht
    have there : p.containsTeam t = true := (congrFun teams t).symm.trans ht
    have part : p.outline.PartOf q.outline := same ▸ .refl _
    exact (Population.wellFormed_iff h.sound.exact part there).1 (h.wellFormed there)
  · intro l x hl
    have before : p.policy? l = some x := (congrFun policy l).symm.trans hl
    exact (congrFun teamsOf l).trans_ne (h.employed before)

/-- Everything on record in a steady stock is there, and a walk from any team
can end. -/
theorem Stock.Steady.complete {allowed : Action → Prop} {stock : Stock}
    (h : stock.Steady allowed) : stock.population.Complete where
  learners := by
    intro t team found l hl
    rw [← Population.members_of_team? found] at hl
    exact (Population.resolve_member h.sound.exact hl).2
  targets := by
    intro l learner u enlisted leads
    have target := (Population.target?_of_learner? enlisted).trans leads
    exact Population.containsTeam_iff.1 (Population.resolve_target h.sound.exact target)
  atomic := by
    intro t team found
    have rules := h.wellFormed (Population.containsTeam_of_team? found)
    obtain ⟨l, hl, program, code, policy⟩ := rules.atomic
    obtain ⟨learner, enlisted, eq⟩ := Population.learner?_of_policy? policy
    obtain ⟨-, action⟩ := Prod.mk.inj eq
    exact ⟨l, Population.members_of_team? found ▸ hl, learner, enlisted,
      by simp [Learner.isAtomic, action]⟩

/-- The memory that agents share, if there is one, is full. -/
def Commons.Full (c : Commons) : Prop := ∀ memory, c.memory = some memory → memory.Full

namespace Trainer

variable {s : Settings} {t next : Trainer}

/-- A trainer that is started has the initial teams and nothing else to go by. -/
theorem start_eq_ok {stream : Stream} (run : start s stream = .ok (.ok t)) :
    s.validate = .ok () ∧ ∃ stock rest,
      (initialTeams s s.trainer.teamPopSize ⟨.empty, {}⟩).run
        (drawSeedBase s.trainer.seed stream).2 = .ok (stock, rest) ∧
      t = {
        settings := s, population := stock.population, counters := stock.counters
        roots := stock.population.roots, elites := [], generation := 0, tasks := {}
        memory := initialMemory s, stream := rest
        seedBase := (drawSeedBase s.trainer.seed stream).1 } := by
  unfold start at run
  split at run
  case h_1 => simp at run
  case h_2 valid =>
    simp only [bind_eq_ok, pure_eq_ok, Except.ok.injEq] at run
    obtain ⟨⟨stock, rest⟩, run, rfl⟩ := run
    exact ⟨valid, stock, rest, run, rfl⟩

theorem allocated_initialMemory {memory : Memory} (made : initialMemory s = some memory) :
    memory.Allocated := by
  unfold initialMemory at made
  split at made
  · exact Option.some.inj made ▸ Memory.allocated_zeros _ _
  · simp at made

theorem Sound.allocated (sound : t.Sound s) {memory : Memory}
    (remembered : t.memory = some memory) : memory.Allocated := by
  have same := sound.memory
  rw [remembered, Option.map_some, eq_comm, Option.map_eq_some_iff] at same
  obtain ⟨initial, made, same⟩ := same
  exact (allocated_initialMemory made).of_shape same.symm

theorem start_sound {stream : Stream} (run : start s stream = .ok (.ok t)) :
    t.Sound s := by
  obtain ⟨-, stock, rest, made, rfl⟩ := start_eq_ok run
  have steady := initialTeams_yields s.trainer.teamPopSize (Stock.steady_empty _) _ _ _ made
  have allowed {l program action} (hl : stock.population.policy? l = some (program, action)) :
      action.Among s.trainer.actions fun _ => True :=
    (steady.allowed hl).mono fun _ => False.elim
  exact {
    settings := rfl
    steady := ⟨steady.sound, allowed, steady.wellFormed, steady.employed⟩
    roots := rfl
    elites := by simp
    memory := rfl }

/-- What leaves the outline of the population alone leaves a trainer sound. -/
theorem Sound.congr (h : t.Sound s) (same : next.population.outline = t.population.outline)
    (counters : next.counters = t.counters) (roots : next.roots = t.roots)
    (elites : next.elites = t.elites) (settings : next.settings = t.settings)
    (memory : next.memory.map Memory.shape = t.memory.map Memory.shape) : next.Sound s where
  settings := settings.trans h.settings
  steady := settings ▸ counters ▸ h.steady.congr same
  roots := roots.trans (h.roots.trans (Population.roots_congr same.symm))
  elites e elite := roots ▸ h.elites e (elites ▸ elite)
  memory := memory.trans h.memory

/-- Nothing is different but names of tasks and what the outline of the population
leaves out. -/
def Annotates (t next : Trainer) : Prop :=
  ∃ population tasks, population.outline = t.population.outline ∧
    next = { t with population, tasks }

theorem Annotates.refl (t : Trainer) : t.Annotates t := ⟨t.population, t.tasks, rfl, rfl⟩

theorem Annotates.trans {middle : Trainer} (h : t.Annotates middle)
    (h' : middle.Annotates next) : t.Annotates next := by
  obtain ⟨p, _, same, rfl⟩ := h
  obtain ⟨q, tasks, same', rfl⟩ := h'
  exact ⟨q, tasks, same'.trans same, rfl⟩

theorem Annotates.sound (h : t.Annotates next) (sound : t.Sound s) : next.Sound s := by
  obtain ⟨p, tasks, same, rfl⟩ := h
  exact sound.congr same rfl rfl rfl rfl rfl

theorem reportOutcome_annotates {team : TeamId} {task : String} {value : Float}
    (run : t.reportOutcome team task value = .ok next) : t.Annotates next := by
  unfold reportOutcome at run
  cases written : t.population.setOutcome team task value with
  | error e => simp [written, bind, Except.bind] at run
  | ok p =>
    simp only [written, bind, Except.bind, pure, Except.pure, Except.ok.injEq] at run
    exact ⟨p, _, Population.outline_setOutcome written, run.symm⟩

theorem reportOutcomes_annotates (team : TeamId) (outcomes : List (String × Float))
    (t : Trainer) : t.Annotates (reportOutcomes team outcomes t).2 := by
  induction outcomes generalizing t with
  | nil => exact .refl t
  | cons outcome outcomes ih =>
    simp only [reportOutcomes]
    cases reported : t.reportOutcome team outcome.1 outcome.2 with
    | error e => exact .refl t
    | ok middle => exact (reportOutcome_annotates reported).trans (ih middle)

theorem applyReports_annotates (reports : List Report) (t : Trainer) :
    t.Annotates (applyReports reports t).2 := by
  induction reports generalizing t with
  | nil => exact .refl t
  | cons report reports ih =>
    have first := reportOutcomes_annotates report.team report.outcomes.toList t
    simp only [applyReports]
    split
    case h_1 middle reported => exact Annotates.trans (by simpa only [reported] using first) (ih _)
    case h_2 e middle reported => simpa only [reported] using first

/-- An evaluation ends with the error of an agent, or takes in what all of them report. -/
theorem evaluate_parts {query : AgentQuery} {environment : Environment}
    {result : Except Error Nat} (run : t.evaluate query environment = .ok (result, next)) :
    ∃ evaluated c, evaluateAll t.population environment (t.agents query) t.commons =
        .ok (evaluated, c) ∧
      ((∃ e, evaluated = .error e ∧ result = .error e ∧ next = t.withCommons c) ∨
        ∃ reports ended, evaluated = .ok reports ∧
          applyReports reports (t.withCommons c) = (ended, next) ∧
          result = ended.map fun _ => reports.length) := by
  simp only [evaluate, bind_eq_ok] at run
  obtain ⟨⟨evaluated, c⟩, evaluation, run⟩ := run
  refine ⟨evaluated, c, evaluation, ?_⟩
  cases evaluated with
  | error e =>
    simp only [pure_eq_ok, Prod.mk.injEq] at run
    exact .inl ⟨e, rfl, run.1.symm, run.2.symm⟩
  | ok reports =>
    dsimp only at run
    split at run
    case h_1 middle eq =>
      simp only [pure_eq_ok, Prod.mk.injEq] at run
      exact .inr ⟨reports, .ok (), rfl, run.2 ▸ eq, run.1.symm⟩
    case h_2 e middle eq =>
      simp only [pure_eq_ok, Prod.mk.injEq] at run
      exact .inr ⟨reports, .error e, rfl, run.2 ▸ eq, run.1.symm⟩

/-- An evaluation lets the agents change what they share, and then takes in what
they report. -/
theorem evaluate_eq_ok {query : AgentQuery} {environment : Environment}
    {result : Except Error Nat} (run : t.evaluate query environment = .ok (result, next)) :
    ∃ evaluated c, evaluateAll t.population environment (t.agents query) t.commons =
      .ok (evaluated, c) ∧ (t.withCommons c).Annotates next := by
  obtain ⟨evaluated, c, evaluation, ⟨e, -, -, rfl⟩ | ⟨reports, ended, -, applied, -⟩⟩ :=
    evaluate_parts run
  · exact ⟨evaluated, c, evaluation, .refl _⟩
  · have annotated := applyReports_annotates reports (t.withCommons c)
    rw [applied] at annotated
    exact ⟨evaluated, c, evaluation, annotated⟩

theorem evaluate_sound {query : AgentQuery} {environment : Environment}
    {result : Except Error Nat} (h : t.Sound s)
    (run : t.evaluate query environment = .ok (result, next)) : next.Sound s := by
  obtain ⟨evaluated, c, evaluation, annotates⟩ := evaluate_eq_ok run
  exact annotates.sound (h.congr rfl rfl rfl rfl rfl (evaluateAll_memory evaluation))

/-- The trainers that come of settings: a trainer is started, which only valid
settings allow, and then called in any order. Calls may end in errors. -/
inductive Reachable (s : Settings) : Trainer → Prop
  | start {stream : Stream} {t : Trainer} (run : Trainer.start s stream = .ok (.ok t)) :
      Reachable s t
  /-- Any words may come next. -/
  | redraw {t : Trainer} (before : Reachable s t) (stream : Stream) : Reachable s { t with stream }
  /-- Agents may write the memory and name tasks at any time; the memory keeps its shape. -/
  | share {t : Trainer} (before : Reachable s t) (c : Commons)
      (kept : c.memory.map Memory.shape = t.memory.map Memory.shape) :
      Reachable s (t.withCommons c)
  | report {t next : Trainer} (before : Reachable s t) (team : TeamId) (task : String)
      (value : Float) (run : t.reportOutcome team task value = .ok next) : Reachable s next
  | apply {t : Trainer} (before : Reachable s t) (reports : List Report) :
      Reachable s (applyReports reports t).2
  | evaluate {t next : Trainer} (before : Reachable s t) (query : AgentQuery)
      (environment : Environment) {result : Except Error Nat}
      (run : t.evaluate query environment = .ok (result, next)) : Reachable s next
  | evolve {t next : Trainer} (before : Reachable s t) (tasks : List String)
      (mode : Scoring.Mode) {result : Except Error Summary}
      (run : t.evolve tasks mode = .ok (result, next)) : Reachable s next

theorem Reachable.sound (h : Reachable s t) : t.Sound s := by
  induction h with
  | start run => exact start_sound run
  | redraw before stream ih => exact { ih with }
  | share before c kept ih => exact ih.congr rfl rfl rfl rfl rfl kept
  | report before team task value run ih => exact (reportOutcome_annotates run).sound ih
  | apply before reports ih => exact (applyReports_annotates reports _).sound ih
  | evaluate before query environment run ih => exact evaluate_sound ih run
  | evolve before tasks mode run ih =>
    obtain ⟨-, rfl⟩ | ⟨-, selected, grown, stages⟩ := evolve_eq_ok ih run
    · exact ih
    · exact stages.sound ih

end Trainer

/-- Of two teams the fitter comes first. -/
theorem Selection.ranked_pair (a b : TeamId × Float) :
    ranked [a, b] = if a.2 < b.2 then [b, a] else [a, b] := by
  by_cases less : a.2 < b.2 <;>
    simp [ranked, List.mergeSort, List.MergeSort.Internal.splitInTwo, less]

/-- Two teams are selected from by a comparison alone. -/
theorem Selection.run_eq : run = fun p scores =>
    cull (match scores with
      | [a, b] => if a.2 < b.2 then [b, a] else [a, b]
      | scores => ranked scores) p := by
  funext p scores
  split
  · rw [← ranked_pair]
    rfl
  · rfl

/-- Two teams of two short programs each. -/
def small : Settings where
  trainer := { teamPopSize := 2 }
  program := { initMaxProgramSize := 1 }
  mutation := { initMaxTeamSize := 2 }

/-- A trainer before and after a generation: the worse of two teams goes, and
the other one has a child with a changed copy of a learner. -/
def shortRun : Option (Trainer × Summary × Trainer) := do
  let t ← (← (Trainer.start small (Stream.ofScript [])).toOption).toOption
  let t ← (t.reportOutcome ⟨0⟩ "task" 1.0).toOption
  let t ← (t.reportOutcome ⟨1⟩ "task" 2.0).toOption
  let high : UInt64 := 0xFFFFFFFFFFFFFFFF
  let words := [0, high, high, 0, 0, 0, high, high, 0, high, high, high, high]
  let t := { t with stream := Stream.ofScript words }
  let (result, next) ← (t.evolve ["task"] .single).toOption
  pure (t, ← result.toOption, next)

/-- The short run, call by call, and the teams that are left. -/
theorem shortRun_teams : ∃ t₀ t₁ t₂ stream summary next,
    Trainer.start small (Stream.ofScript []) = .ok (.ok t₀) ∧
    t₀.reportOutcome ⟨0⟩ "task" 1.0 = .ok t₁ ∧ t₁.reportOutcome ⟨1⟩ "task" 2.0 = .ok t₂ ∧
    Trainer.evolve { t₂ with stream } ["task"] .single = .ok (.ok summary, next) ∧
    t₂.roots = [⟨0⟩, ⟨1⟩] ∧ next.roots = [⟨1⟩, ⟨2⟩] ∧ next.population.teamIds = [⟨1⟩, ⟨2⟩] := by
  have run : shortRun.map (fun (t, _, next) => (t.roots, next.roots, next.population.teamIds)) =
      some ([⟨0⟩, ⟨1⟩], [⟨1⟩, ⟨2⟩], [⟨1⟩, ⟨2⟩]) := by
    simp only [shortRun, Trainer.evolve, Trainer.advance]
    rw [Selection.run_eq]
    decide +kernel
  simp only [shortRun, Option.map_eq_some_iff, Option.bind_eq_bind, Option.bind_eq_some_iff,
    Option.pure_def, Option.some.injEq] at run
  obtain ⟨_, ⟨started, run, t₀, start, t₁, first, t₂, second, ⟨result, next⟩, evolution, summary,
    success, rfl⟩, lists⟩ := run
  obtain rfl := ok_of_toOption start
  obtain rfl := ok_of_toOption success
  obtain ⟨before, lists⟩ := Prod.mk.inj lists
  obtain ⟨after, teams⟩ := Prod.mk.inj lists
  exact ⟨t₀, t₁, t₂, _, summary, next, ok_of_toOption run, ok_of_toOption first,
    ok_of_toOption second, ok_of_toOption evolution, before, after, teams⟩

theorem shortRun_calls : ∃ t₀ t₁ t₂ stream summary next,
    Trainer.start small (Stream.ofScript []) = .ok (.ok t₀) ∧
    t₀.reportOutcome ⟨0⟩ "task" 1.0 = .ok t₁ ∧ t₁.reportOutcome ⟨1⟩ "task" 2.0 = .ok t₂ ∧
    Trainer.evolve { t₂ with stream } ["task"] .single = .ok (.ok summary, next) ∧
    t₂.roots = [⟨0⟩, ⟨1⟩] ∧ next.roots = [⟨1⟩, ⟨2⟩] := by
  obtain ⟨t₀, t₁, t₂, stream, summary, next, start, first, second, evolution, before, after, -⟩ :=
    shortRun_teams
  exact ⟨t₀, t₁, t₂, stream, summary, next, start, first, second, evolution, before, after⟩

theorem shortRun_reachable : ∃ t summary next, Trainer.Reachable small t ∧
    t.evolve ["task"] .single = .ok (.ok summary, next) ∧
    t.roots = [⟨0⟩, ⟨1⟩] ∧ next.roots = [⟨1⟩, ⟨2⟩] := by
  obtain ⟨t₀, t₁, t₂, stream, summary, next, start, first, second, evolution, before, after⟩ :=
    shortRun_calls
  have reached : Trainer.Reachable small t₂ :=
    .report (.report (.start start) _ _ _ first) _ _ _ second
  exact ⟨_, summary, next, reached.redraw stream, evolution, before, after⟩

namespace Trainer

variable {s : Settings} {t : Trainer}

/-- What may be relied on between calls: the records confirm each other, the
teams keep all rules, every learner is on a team, the roots are listed in
ascending order, and the elites are roots. -/
structure Consistent (t : Trainer) : Prop where
  audit : t.population.audit = []
  teams : ∀ id team, t.population.team? id = some team →
    2 ≤ team.learners.length ∧ team.learners.Nodup ∧
      (∃ l ∈ team.learners, ∃ learner, t.population.learner? l = some learner ∧
        learner.isAtomic = true) ∧
      ∀ l ∈ team.learners, ∀ learner, t.population.learner? l = some learner →
        learner.target? ≠ some id
  learners : ∀ l learner, t.population.learner? l = some learner → learner.inTeams ≠ []
  ascending : t.roots.Pairwise fun a b => a.val < b.val
  roots : ∀ id, id ∈ t.roots ↔
    ∃ team, t.population.team? id = some team ∧ team.inLearners = []
  elites : ∀ id ∈ t.elites, id ∈ t.roots

/-- Whatever is called, drawn and reported, a trainer stays consistent. -/
theorem Reachable.consistent (h : Reachable s t) : t.Consistent where
  audit := Population.audit_eq_nil h.sound.steady.sound.exact
  teams id team found := by
    have listed := Population.members_of_team? found
    have rules := h.sound.steady.wellFormed (Population.containsTeam_of_team? found)
    have foreign : ∀ l ∈ team.learners, ∀ learner, t.population.learner? l = some learner →
        learner.target? ≠ some id := by
      intro l hl learner enlisted own
      rw [← listed] at hl
      exact rules.foreign l hl ((Population.target?_of_learner? enlisted).trans own)
    exact ⟨listed ▸ rules.two_le, listed ▸ rules.nodup,
      h.sound.steady.complete.atomic found, foreign⟩
  learners l learner enlisted alone := by
    have employed := h.sound.steady.employed (Population.policy?_of_learner? enlisted)
    rw [Population.teamsOf_of_learner? enlisted] at employed
    exact employed alone
  ascending := h.sound.roots ▸ t.population.roots_ascending
  roots id := by
    rw [h.sound.roots, Population.mem_roots]
    constructor
    · rintro ⟨there, unreferred⟩
      obtain ⟨team, found⟩ := Population.containsTeam_iff.1 there
      exact ⟨team, found, Population.references_of_team? found ▸ unreferred⟩
    · rintro ⟨team, found, unreferred⟩
      exact ⟨Population.containsTeam_of_team? found,
        (Population.references_of_team? found).trans unreferred⟩
  elites := h.sound.elites

theorem consistent_after_shortRun :
    ∃ t, Reachable small t ∧ t.roots = [⟨1⟩, ⟨2⟩] ∧ t.Consistent := by
  obtain ⟨t, summary, next, reached, evolution, -, roots⟩ := shortRun_reachable
  have reached' : Reachable small next := reached.evolve _ _ evolution
  exact ⟨next, reached', roots, reached'.consistent⟩

end Trainer

end TangledGraph
