import TangledGraph.Proofs.Training.Endurance
import TangledGraph.Proofs.Training.Lineage

/-!
# Trainers that are taken up

A document is taken up if its graph is sound and its roots are the roots of the
graph, in whatever order and however often. Of its counters nothing is asked but that
they are words. So a trainer that is taken up can go on exactly if its roots are listed
once and new identities are unused, for as long as there are words to count with and
numbers to sort.
-/
namespace TangledGraph

open Json Relation Rounding

/-- A checkpoint that is taken up has valid settings, parts of a population, and the
roots of that. -/
theorem Checkpoint.resume_eq_ok {c : Checkpoint} {entropy : Stream} {t : Trainer}
    (run : c.resume entropy = .ok (.ok t)) :
    t.settings.validate = .ok () ∧
      Population.restore c.teams c.learners = .ok (.ok t.population) ∧
      teamSet c.roots = t.population.roots ∧ t.roots = c.roots ∧ t.counters = c.counters ∧
      t.generation = c.generation := by
  unfold resume at run
  cases valid : c.settings.validate with
  | error problem => simp [valid] at run
  | ok _ =>
    simp only [valid, bind_eq_ok] at run
    obtain ⟨restored, restores, run⟩ := run
    cases restored with
    | error problem => simp at run
    | ok p =>
      dsimp only at run
      split at run
      case isTrue => simp at run
      case isFalse same =>
        simp only [pure_eq_ok, Except.ok.injEq] at run
        subst run
        exact ⟨valid, restores, by simpa using same, rfl, rfl, rfl⟩

namespace Trainer

variable {t next : Trainer} {document : Json} {entropy : Stream}

/-- No identity in use is handed out again. -/
structure FreshIds (t : Trainer) : Prop where
  teams : ∀ entry ∈ t.population.teamList, entry.1.val < t.counters.team
  learners : ∀ entry ∈ t.population.learnerList,
    entry.1.val < t.counters.learner ∧ entry.2.program.id.val < t.counters.program

instance (t : Trainer) : Decidable t.FreshIds :=
  decidable_of_iff (_ ∧ _) ⟨fun ⟨a, b⟩ => ⟨a, b⟩, fun ⟨a, b⟩ => ⟨a, b⟩⟩

theorem FreshIds.below (fresh : t.FreshIds) : t.population.outline.Below t.counters where
  team {id} there := by
    obtain ⟨team, found⟩ := Population.containsTeam_iff.1 there
    exact fresh.teams (id, team) (Population.mem_teamList.2 found)
  learner {l policy} hl := by
    obtain ⟨learner, enlisted, -⟩ := Population.learner?_of_policy? hl
    exact (fresh.learners (l, learner) (Population.mem_learnerList.2 enlisted)).1

/-- The counters and the generation of a trainer are words. -/
structure InWords (t : Trainer) : Prop where
  counters : t.counters.Fits
  generation : IsWord t.generation

instance (t : Trainer) : Decidable t.InWords :=
  decidable_of_iff (_ ∧ _) ⟨fun ⟨a, b⟩ => ⟨a, b⟩, fun ⟨a, b⟩ => ⟨a, b⟩⟩

/-- What a generation sorts are numbers: the outcomes that count, and the fitness that is
drawn for them. -/
def SortsNumbers (t : Trainer) (tasks : List String) (mode : Scoring.Mode) : Prop :=
  ∀ outcomes ∈ (t.outcomeMatrix tasks).toOption,
    (∀ row ∈ outcomes, ∀ x ∈ row, x.isNaN = false) ∧
      ∀ drawn ∈ ((Scoring.score mode outcomes).run t.stream).toOption,
        ∀ x ∈ drawn.1, x.isNaN = false

instance (t : Trainer) (tasks : List String) (mode : Scoring.Mode) :
    Decidable (t.SortsNumbers tasks mode) :=
  inferInstanceAs (Decidable (∀ outcomes ∈ (t.outcomeMatrix tasks).toOption, _ ∧ _))

/-- A call that leaves words for counters and generation, and that takes a generation only
if what it sorts are numbers. -/
structure Ordinary (t next : Trainer) : Prop where
  call : t.Call next
  words : next.InWords
  numbers : next.generation = t.generation ∨ ∃ tasks mode summary,
    t.evolve tasks mode = .ok (.ok summary, next) ∧ t.SortsNumbers tasks mode

theorem Ordinary.redraw (words : t.InWords) (stream : Stream) :
    t.Ordinary { t with stream } where
  call := .redraw stream
  words := { words with }
  numbers := .inl rfl

theorem Ordinary.report (words : t.InWords) {team : TeamId} {task : String} {value : Float}
    (run : t.reportOutcome team task value = .ok next) : t.Ordinary next := by
  have call : t.Call next := .report team task value run
  obtain ⟨_, _, -, rfl⟩ := reportOutcome_annotates run
  exact ⟨call, { words with }, .inl rfl⟩

/-- A generation hands out the last number of a counter, or is itself the last. -/
def Overruns (t : Trainer) (tasks : List String) (mode : Scoring.Mode) : Prop :=
  ∃ result next, t.evolve tasks mode = .ok (result, next) ∧ ¬next.InWords

/-- How a trainer that is taken up takes a call for a generation: it is refused for want of
outcomes, and then nothing changes, or it ends and overwrites nothing, unless it overruns
a counter. -/
structure Continues (t : Trainer) (tasks : List String) (mode : Scoring.Mode) : Prop where
  noTask : t.effectiveTasks tasks = [] →
    t.evolve tasks mode = .ok (.error (.configuration .noTasks), t)
  missing : t.effectiveTasks tasks ≠ [] → ∀ id task,
    t.missing? (t.effectiveTasks tasks) = some (id, task) →
      t.evolve tasks mode = .ok (.error (.missingOutcome id task), t)
  goes : t.effectiveTasks tasks ≠ [] → t.missing? (t.effectiveTasks tasks) = none →
    ¬t.Overruns tasks mode → t.evolve tasks mode = .error .endless ∨
      ∃ summary next, t.evolve tasks mode = .ok (.ok summary, next) ∧ next.InWords ∧
        t.Spares next
  /-- What it sorts can be sorted. -/
  sorts : ∀ outcomes, t.outcomeMatrix tasks = .ok outcomes →
    (∀ order, Sorts (fun a b => Scoring.standing order a.1 b.1 != .gt) outcomes.zipIdx) ∧
      ∀ fitness rest, (Scoring.score mode outcomes).run t.stream = .ok (fitness, rest) →
        Sorts (fun a b => !(a.2 < b.2)) (t.roots.zip fitness)
  /-- The places that it looks up are there. -/
  champions : ∀ outcomes, t.outcomeMatrix tasks = .ok outcomes →
    ∀ i ∈ Scoring.elites outcomes, i < t.roots.length
  condemned : Selection.condemned t.roots.length t.settings.trainer.gap ≤ t.roots.length

/-- What a trainer that is taken up should be: its roots are those of the population,
each once, no identity in use is handed out again, and whatever ordinary calls follow, it
continues. -/
structure Resumes (t : Trainer) : Prop where
  roots : ∀ id, t.roots.count id = if id ∈ t.population.roots then 1 else 0
  ids : t.FreshIds
  continues : ∀ next, ReflTransGen Ordinary t next → ∀ tasks mode,
    next.SortsNumbers tasks mode → next.Continues tasks mode

theorem Endures.continues (endures : t.Endures) {tasks : List String} {mode : Scoring.Mode}
    (numbers : t.SortsNumbers tasks mode) : t.Continues tasks mode := by
  have responds := endures.responds tasks mode
  constructor
  case noTask => exact responds.noTask
  case missing => exact responds.missing
  case goes =>
    intro some complete room
    obtain ⟨summary, next, run⟩ | endless := responds.goes some complete
    case inr => exact .inl endless
    case inl =>
      have words : next.InWords := by_contra fun spent => room ⟨_, _, run, spent⟩
      obtain ⟨⟨e, failed⟩, -⟩ | ⟨-, -, spares⟩ := endures.evolve_eq_ok run
      · cases failed
      · exact .inr ⟨summary, next, run, words, spares⟩
  case sorts =>
    intro outcomes matrix
    obtain ⟨plain, drawn⟩ := numbers outcomes (by rw [matrix]; rfl)
    refine ⟨responds.rankable outcomes matrix plain, fun fitness rest run => ?_⟩
    exact responds.sortable fitness (drawn (fitness, rest) (by rw [run]; rfl))
  case champions => exact responds.champions
  case condemned => exact responds.condemned

/-- What is taken up endures if its roots are different and the identities of its
teams and learners are not handed out again. -/
theorem endures_of_resume {c : Checkpoint} (run : c.resume entropy = .ok (.ok t))
    (nodup : t.roots.Nodup) (below : t.population.outline.Below t.counters) : t.Endures := by
  obtain ⟨valid, restored, same, listed, -⟩ := Checkpoint.resume_eq_ok run
  obtain ⟨-, audited, wellFormed⟩ := Population.restore_eq_ok restored
  have loose := t.population.loosens_tidied
  have members (u : TeamId) : (t.population.members u).Nodup := by
    cases there : t.population.containsTeam u with
    | true => exact (wellFormed there).nodup
    | false =>
      rw [Population.members_eq_nil there]
      exact List.nodup_nil
  refine ⟨valid, ⟨⟨t.population.tidied, t.counters⟩, ⟨loose, rfl⟩, ⟨?_, ?_⟩, fun {u} hu => ?_⟩,
    nodup, fun id root => ?_⟩
  · exact Population.exact_tidied audited members
  · exact loose.below_iff.1 below
  · exact loose.wellFormed_iff.1 (wellFormed ((congrFun loose.containsTeam_eq u).trans hu))
  · rw [listed, ← Checkpoint.mem_teamSet, same] at root
    exact Population.mem_roots.1 root

theorem Endures.below (endures : t.Endures) : t.population.outline.Below t.counters := by
  obtain ⟨tidy, loose, sound, -⟩ := endures.tidies
  have counters : t.counters = tidy.counters := loose.counters
  exact counters ▸ loose.population.below_iff.2 sound.below

/-- Outcomes and fitness play no part. -/
theorem Endures.congr (endures : t.Endures)
    (same : next.population.outline = t.population.outline) (counters : next.counters = t.counters)
    (roots : next.roots = t.roots) (settings : next.settings = t.settings) : next.Endures := by
  obtain ⟨valid, ⟨tidy, loose, sound, wellFormed⟩, nodup, unreferred⟩ := endures
  refine ⟨settings ▸ valid, ⟨tidy, ⟨loose.population.congr same, counters.trans loose.counters⟩,
    sound, wellFormed⟩, roots ▸ nodup, fun id root => ?_⟩
  obtain ⟨there, root⟩ := unreferred id (roots ▸ root)
  exact ⟨(congrFun (congrArg Outline.teams same) id).trans there,
    (congrFun (congrArg Outline.references same) id).trans root⟩

theorem Annotates.endures (h : t.Annotates next) (endures : t.Endures) : next.Endures := by
  obtain ⟨p, tasks, same, rfl⟩ := h
  exact endures.congr same rfl rfl rfl

/-- What is stored is taken up as it was stored, if at all. -/
theorem resume_of_load_saved (run : load t.saved entropy = .ok (.ok next)) :
    t.checkpoint.stored.resume entropy = .ok (.ok next) := by
  have document : t.saved = t.checkpoint.toJson.written := rfl
  rw [load, document] at run
  cases read : Checkpoint.ofJson? t.checkpoint.toJson.written with
  | none => simp [read] at run
  | some c =>
    have stored := (Checkpoint.stores.eq_some.1 read).2
    rw [read] at run
    rw [stored]
    exact run

/-- Every call leaves an enduring trainer. -/
theorem Endures.call (endures : t.Endures) (call : t.Call next) : next.Endures := by
  cases call with
  | redraw stream => exact { endures with }
  | share c kept => exact endures.congr rfl rfl rfl rfl
  | report team task value run => exact (reportOutcome_annotates run).endures endures
  | apply reports => exact (applyReports_annotates reports t).endures endures
  | evaluate query environment run =>
    obtain ⟨evaluated, c, -, annotates⟩ := evaluate_eq_ok run
    exact annotates.endures (endures.congr rfl rfl rfl rfl)
  | evolve tasks mode run =>
    obtain ⟨-, rfl⟩ | ⟨-, goes, -⟩ := endures.evolve_eq_ok run
    · exact endures
    · exact goes
  | load entropy run =>
    have again := resume_of_load_saved run
    obtain ⟨-, restored, -, roots, counters, -⟩ := Checkpoint.resume_eq_ok again
    have population : t.population.stored = next.population :=
      t.population.ofLists_stored.symm.trans (Population.restore_eq_ok restored).1
    refine endures_of_resume again (roots ▸ endures.nodup) ?_
    rw [counters, ← population, Population.outline_stored]
    exact endures.below

theorem Endures.calls (endures : t.Endures) (calls : ReflTransGen Call t next) :
    next.Endures := by
  induction calls with
  | refl => exact endures
  | tail _ call ih => exact ih.call call

/-- What is read from a document are words. -/
theorem Checkpoint.words_of_ofJson? {c : Checkpoint} (read : Checkpoint.ofJson? document = some c) :
    c.counters.Fits ∧ IsWord c.generation := by
  simp only [Checkpoint.ofJson?, required, Option.bind_eq_bind, Option.bind_eq_some_iff,
    Option.pure_def, Option.some.injEq] at read
  obtain ⟨_, -, _, -, _, ⟨_, -, generation⟩, _, ⟨_, -, counters⟩, rest⟩ := read
  obtain ⟨_, -, _, -, _, -, _, -, _, -, _, -, rfl⟩ := rest
  exact ⟨Counters.fits_of_ofJson? counters, isWord_of_natural? generation⟩

/-- A trainer that is taken up lists its roots, and its counters are words. It can go on
exactly if it lists its roots once and hands out no identity that is in use. -/
theorem resumes_iff (run : load document entropy = .ok (.ok t)) :
    (∀ id, id ∈ t.roots ↔ id ∈ t.population.roots) ∧ t.InWords ∧
      (t.Resumes ↔ t.roots.Nodup ∧ t.FreshIds) := by
  unfold load at run
  cases read : Checkpoint.ofJson? document with
  | none => simp [read] at run
  | some c =>
    rw [read] at run
    obtain ⟨-, -, same, roots, counters, generation⟩ := Checkpoint.resume_eq_ok run
    have listed : ∀ id, id ∈ t.roots ↔ id ∈ t.population.roots := by
      intro id
      rw [roots, ← same, Checkpoint.mem_teamSet]
    obtain ⟨fits, word⟩ := Checkpoint.words_of_ofJson? read
    have words : t.InWords := ⟨counters ▸ fits, generation ▸ word⟩
    refine ⟨listed, words, fun resumes => ⟨?_, resumes.ids⟩, fun ⟨nodup, fresh⟩ => ?_⟩
    · refine List.nodup_iff_count_le_one.2 fun id => ?_
      rw [resumes.roots]
      split <;> omega
    · have endures := endures_of_resume run nodup fresh.below
      constructor
      case roots =>
        intro id
        by_cases root : id ∈ t.population.roots
        · rw [if_pos root, List.count_eq_one_of_mem nodup ((listed id).2 root)]
        · rw [if_neg root, List.count_eq_zero.2 (mt (listed id).1 root)]
      case ids => exact fresh
      case continues =>
        intro next calls tasks mode numbers
        have calls : ReflTransGen Call t next :=
          ReflTransGen.mono (fun _ _ => Ordinary.call) _ _ calls
        exact (endures.calls calls).continues numbers

/-- Two teams, stored with something else than it was, and taken up again. -/
def edited (edit : Checkpoint → Checkpoint) : Option (Json × Trainer) := do
  let t ← (← (start small (Stream.ofScript [])).toOption).toOption
  let document := (edit t.checkpoint).toJson.written
  let t ← (← (load document (Stream.ofScript [])).toOption).toOption
  pure (document, t)

theorem load_of_edited {edit : Checkpoint → Checkpoint} (run : edited edit = some (document, t)) :
    load document (Stream.ofScript []) = .ok (.ok t) := by
  simp only [edited, Option.bind_eq_bind, Option.bind_eq_some_iff, Option.pure_def,
    Option.some.injEq, Prod.mk.injEq] at run
  obtain ⟨_, -, _, -, _, loaded, _, result, rfl, rfl⟩ := run
  obtain rfl := ok_of_toOption result
  exact ok_of_toOption loaded

theorem unedited_resumes : ∃ document t,
    load document (Stream.ofScript []) = .ok (.ok t) ∧ t.roots.Nodup ∧ t.FreshIds ∧ t.Resumes := by
  have run : (edited id).map (fun (_, t) => decide (t.roots.Nodup ∧ t.FreshIds)) = some true := by
    decide +kernel
  obtain ⟨⟨document, t⟩, taken, once⟩ := Option.map_eq_some_iff.1 run
  obtain ⟨nodup, fresh⟩ := of_decide_eq_true once
  have loaded := load_of_edited taken
  exact ⟨document, t, loaded, nodup, fresh, (resumes_iff loaded).2.2.2 ⟨nodup, fresh⟩⟩

/-- Two teams that are stored with another counter of teams and taken up, and that have
outcomes then and words to draw from. -/
def renumbered (team : Nat) (outcome outcome' : Float) (words : List UInt64) :
    Option (Json × Trainer × Trainer) := do
  let (document, t) ← edited fun c => { c with counters := { c.counters with team } }
  let first ← (t.reportOutcome ⟨0⟩ "task" outcome).toOption
  let second ← (first.reportOutcome ⟨1⟩ "task" outcome').toOption
  pure (document, t, { second with stream := Stream.ofScript words })

theorem renumbered_calls {team : Nat} {outcome outcome' : Float} {words : List UInt64}
    (run : renumbered team outcome outcome' words = some (document, t, next)) :
    load document (Stream.ofScript []) = .ok (.ok t) ∧ ReflTransGen Ordinary t next := by
  simp only [renumbered, Option.bind_eq_bind, Option.bind_eq_some_iff, Option.pure_def,
    Option.some.injEq, Prod.mk.injEq] at run
  obtain ⟨_, taken, first, report, second, report', rfl, rfl, rfl⟩ := run
  have loaded := load_of_edited taken
  have words₀ := (resumes_iff loaded).2.1
  have first' := Ordinary.report words₀ (ok_of_toOption report)
  have second' := Ordinary.report first'.words (ok_of_toOption report')
  have drawn := Ordinary.redraw second'.words (Stream.ofScript words)
  exact ⟨loaded, ((ReflTransGen.single first').tail second').tail drawn⟩

theorem repeated_root_accepted : ∃ document t,
    load document (Stream.ofScript []) = .ok (.ok t) ∧ t.roots.count ⟨0⟩ = 2 := by
  have run : (edited fun c => { c with roots := ⟨0⟩ :: c.roots }).map
      (fun (_, t) => t.roots.count ⟨0⟩) = some 2 := by
    decide +kernel
  obtain ⟨⟨document, t⟩, taken, twice⟩ := Option.map_eq_some_iff.1 run
  exact ⟨document, t, load_of_edited taken, twice⟩

/-- With a counter of teams that starts again, the first child of the better team takes
the place of its parent. -/
theorem behind_counter_breaks : ∃ document t next,
    load document (Stream.ofScript []) = .ok (.ok t) ∧ ReflTransGen Ordinary t next ∧
    next.missing? ["task"] = none ∧ next.SortsNumbers ["task"] .single ∧
    next.evolve ["task"] .single =
      .error (.violation (.malformedTeam (.tooFewLearners ⟨0⟩ 0))) := by
  let high : UInt64 := 0xFFFFFFFFFFFFFFFF
  have run : (renumbered 0 2.0 1.0 [0, high, high, high, high, high]).map
      (fun run => (run.2.2.missing? ["task"], decide (run.2.2.SortsNumbers ["task"] .single),
        fault? (run.2.2.evolve ["task"] .single))) =
      some (none, true, some (.violation (.malformedTeam (.tooFewLearners ⟨0⟩ 0)))) := by
    simp only [evolve, advance]
    rw [Selection.run_eq]
    decide +kernel
  obtain ⟨⟨document, t, next⟩, taken, facts⟩ := Option.map_eq_some_iff.1 run
  simp only [Prod.mk.injEq, decide_eq_true_eq] at facts
  obtain ⟨complete, numbers, breaks⟩ := facts
  obtain ⟨loaded, calls⟩ := renumbered_calls taken
  exact ⟨document, t, next, loaded, calls, complete, numbers, error_of_fault? breaks⟩

/-- The first child uses up a counter of teams that is at the last of its numbers. -/
theorem last_number_used_up : ∃ document t next,
    load document (Stream.ofScript []) = .ok (.ok t) ∧ t.roots.Nodup ∧ t.FreshIds ∧
    ReflTransGen Ordinary t next ∧ next.missing? ["task"] = none ∧
    next.SortsNumbers ["task"] .single ∧ next.Overruns ["task"] .single := by
  let high : UInt64 := 0xFFFFFFFFFFFFFFFF
  let words := [0, high, high, 0, 0, 0, high, high, 0, high, high, high, high]
  have run : (renumbered (Nat.pow 2 64 - 1) 1.0 2.0 words).map (fun run =>
      (decide (run.2.1.roots.Nodup ∧ run.2.1.FreshIds), run.2.2.missing? ["task"],
        decide (run.2.2.SortsNumbers ["task"] .single),
        (run.2.2.evolve ["task"] .single).toOption.map fun evolved =>
          decide evolved.2.InWords)) =
      some (true, none, true, some false) := by
    simp only [evolve, advance]
    rw [Selection.run_eq]
    decide +kernel
  obtain ⟨⟨document, t, next⟩, taken, facts⟩ := Option.map_eq_some_iff.1 run
  simp only [Prod.mk.injEq, decide_eq_true_eq, Option.map_eq_some_iff,
    decide_eq_false_iff_not] at facts
  obtain ⟨⟨nodup, fresh⟩, complete, numbers, ⟨result, after⟩, evolution, spent⟩ := facts
  obtain ⟨loaded, calls⟩ := renumbered_calls taken
  exact ⟨document, t, next, loaded, nodup, fresh, calls, complete, numbers, result, after,
    ok_of_toOption evolution, spent⟩

/-- A document is taken up though it lists a root twice, or has a counter that is behind,
so that a generation breaks a rule of the graph, or a counter with one number left. -/
theorem careless_documents_accepted :
    (∃ document t, load document (Stream.ofScript []) = .ok (.ok t) ∧
      t.roots.count ⟨0⟩ = 2) ∧
    (∃ document t next, load document (Stream.ofScript []) = .ok (.ok t) ∧
      ReflTransGen Ordinary t next ∧ next.missing? ["task"] = none ∧
      next.SortsNumbers ["task"] .single ∧ next.evolve ["task"] .single =
        .error (.violation (.malformedTeam (.tooFewLearners ⟨0⟩ 0)))) ∧
    ∃ document t next, load document (Stream.ofScript []) = .ok (.ok t) ∧
      t.roots.Nodup ∧ t.FreshIds ∧ ReflTransGen Ordinary t next ∧
      next.missing? ["task"] = none ∧ next.SortsNumbers ["task"] .single ∧
      next.Overruns ["task"] .single :=
  ⟨repeated_root_accepted, behind_counter_breaks, last_number_used_up⟩

end Trainer

end TangledGraph
