import TangledGraph.Proofs.Training.Interleaving

/-!
# Intake that fails

An outcome of a team that is not there is refused, and nothing comes of it. Reports are
taken in one after another, so those before a refused one stay. An environment that ends
with an error keeps the reports of the agents from being taken in; but agents name the
tasks of their rewards as they go, and so these are named whether or not the evaluation
comes to its end, and however the agents take turns.
-/
namespace TangledGraph

variable {p : Population}

/-- An interaction names the tasks that the agent reports and no others. -/
theorem Interaction.run_names (i : Interaction) {a a' : Agent} {c c' : Commons}
    {result : Except Error Unit} (named : ∀ name ∈ a.reported, name ∈ c.tasks)
    (run : i.run p a c = .ok (result, a', c')) (name : String) :
    name ∈ c'.tasks ↔ name ∈ c.tasks ∨ name ∈ a'.reported := by
  induction i generalizing a c with
  | finish ended =>
    obtain ⟨-, rfl, rfl⟩ := run_finish_eq_ok.1 run
    exact (or_iff_left_of_imp (named name)).symm
  | act input next ih =>
    obtain ⟨answer, mind, -, rest⟩ := run_act_eq_ok.1 run
    exact ih answer (a := { a with context := mind.context })
      (c := { c with memory := mind.memory }) named rest
  | reward task value next ih =>
    have named' : ∀ name ∈ (a.reward task value c).1.reported,
        name ∈ (a.reward task value c).2.tasks := by
      intro name reported
      simp only [Agent.reward, Std.ExtTreeMap.mem_insert, Std.ExtTreeSet.mem_insert] at reported ⊢
      exact reported.imp_right (named name)
    have new : task ∈ a'.reported := (run_keeps next run).2 task Std.ExtTreeMap.mem_insert_self
    rw [ih named' run, Agent.reward, Std.ExtTreeSet.mem_insert,
      Std.LawfulEqCmp.compare_eq_iff_eq, or_assoc]
    exact or_iff_right_of_imp fun same => .inr (same ▸ new)
  | taskDone task next ih => exact ih _ named run
  | reset next ih => exact ih (a := a.reset) named run
  | inspect next ih => exact ih _ named run

/-- Agents that all come to an end have named the tasks that they report. -/
theorem evaluateAll_names {environment : Environment} {agents : List Agent} {c c' : Commons}
    {reports : List Report} (fresh : ∀ a ∈ agents, a.reported = {})
    (run : evaluateAll p environment agents c = .ok (.ok reports, c')) :
    reports.map Report.team = agents.map Agent.team ∧
      ∀ name, name ∈ c'.tasks ↔ name ∈ c.tasks ∨ ∃ r ∈ reports, name ∈ r.outcomes := by
  induction agents generalizing c reports with
  | nil =>
    simp only [evaluateAll, pure_eq_ok, Prod.mk.injEq, Except.ok.injEq] at run
    obtain ⟨rfl, rfl⟩ := run
    exact ⟨rfl, by simp⟩
  | cons a agents ih =>
    obtain ⟨first, others⟩ := List.forall_mem_cons.1 fresh
    obtain ⟨a', middle, later, interaction, rest, rfl⟩ := evaluateAll_cons_eq_ok_ok.1 run
    have names := Interaction.run_names _ (by simp [first]) interaction
    obtain ⟨teams, names'⟩ := ih others rest
    refine ⟨?_, fun name => ?_⟩
    · rw [List.map_cons, List.map_cons, teams]
      exact congrArg (· :: _) (Interaction.run_keeps _ interaction).1
    · rw [names', names, List.exists_mem_cons_iff, or_assoc]
      rfl

/-- The first agent that ends with an error is the last one to interact. -/
theorem evaluateAll_error {environment : Environment} {agents : List Agent} {c c' : Commons}
    {e : Error} (fresh : ∀ a ∈ agents, a.reported = {})
    (run : evaluateAll p environment agents c = .ok (.error e, c')) :
    ∃ done failing rest reports middle a', agents = done ++ failing :: rest ∧
      evaluateAll p environment done c = .ok (.ok reports, middle) ∧
      (environment failing.team).run p failing middle = .ok (.error e, a', c') ∧
      ∀ name, name ∈ c'.tasks ↔
        name ∈ c.tasks ∨ (∃ r ∈ reports, name ∈ r.outcomes) ∨ name ∈ a'.reported := by
  induction agents generalizing c with
  | nil => simp [evaluateAll, pure, Except.pure] at run
  | cons a agents ih =>
    obtain ⟨first, others⟩ := List.forall_mem_cons.1 fresh
    obtain ⟨e', a', interaction, ended⟩ | ⟨a', middle, later, interaction, rest, ended⟩ :=
      evaluateAll_cons_eq_ok.1 run
    · obtain rfl := Except.error.inj ended
      have names := Interaction.run_names _ (by simp [first]) interaction
      exact ⟨[], a, agents, [], c, a', rfl, rfl, interaction, fun name => by simp [names]⟩
    · obtain rfl : later = .error e := by
        cases later with
        | ok later => cases ended
        | error e' => rw [Except.error.inj ended]
      have names := Interaction.run_names _ (by simp [first]) interaction
      obtain ⟨done, failing, left, reports, c₁, a₁, rfl, ended, failure, names'⟩ := ih others rest
      refine ⟨a :: done, failing, left, a'.report :: reports, c₁, a₁, rfl,
        evaluateAll_cons_eq_ok_ok.2 ⟨a', middle, reports, interaction, ended, rfl⟩, failure,
        fun name => ?_⟩
      rw [names', names, List.exists_mem_cons_iff, or_assoc, or_assoc]
      rfl

theorem Player.turn_names {x x' : Player} {c c' : Commons} (named : x.Named c.tasks)
    (run : x.turn p c = .ok (x', c')) :
    (∀ name ∈ x.agent.reported, name ∈ x'.agent.reported) ∧
      ∀ name, name ∈ c'.tasks ↔ name ∈ c.tasks ∨ name ∈ x'.agent.reported := by
  obtain ⟨-, reported, noted⟩ := turn_writes run
  rw [reported, noted]
  exact ⟨fun _ => mem_rewarded, fun _ => mem_noted named⟩

/-- However players take turns, the tasks that are named are those from before and those
reported. -/
theorem play_names {schedule : List Nat} {players players' : List Player} {c c' : Commons}
    (named : ∀ x ∈ players, x.Named c.tasks)
    (run : play p schedule players c = .ok (players', c')) :
    (∀ name, (∃ x ∈ players, name ∈ x.agent.reported) →
        ∃ x ∈ players', name ∈ x.agent.reported) ∧
      ∀ name, name ∈ c'.tasks ↔ name ∈ c.tasks ∨ ∃ x ∈ players', name ∈ x.agent.reported := by
  induction schedule generalizing players c with
  | nil =>
    obtain ⟨rfl, rfl⟩ := Prod.mk.inj (pure_eq_ok.1 run)
    refine ⟨fun _ => id, fun name => (or_iff_left_of_imp ?_).symm⟩
    rintro ⟨x, listed, reported⟩
    exact named x listed name reported
  | cons i schedule ih =>
    rw [play] at run
    cases found : players[i]? with
    | none =>
      simp only [found] at run
      exact ih named run
    | some x =>
      simp only [found, bind_eq_ok] at run
      obtain ⟨⟨x', middle⟩, turn, run⟩ := run
      have listed := List.mem_of_getElem? found
      have inside := (List.getElem?_eq_some_iff.1 found).1
      obtain ⟨kept, names⟩ := Player.turn_names (named x listed) turn
      have named' : ∀ y ∈ players.set i x', y.Named middle.tasks :=
        forall_mem_set
          (fun y other name reported => (names name).2 (.inl (named y other name reported)))
          fun name reported => (names name).2 (.inr reported)
      obtain ⟨kept', names'⟩ := ih named' run
      have there : x' ∈ players.set i x' := List.mem_set inside x'
      refine ⟨fun name => ?_, fun name => ?_⟩
      · rintro ⟨y, other, reported⟩
        obtain ⟨j, place, rfl⟩ := List.getElem_of_mem other
        by_cases same : i = j
        · have mine : players[j] = x := by
            subst same
            exact (List.getElem?_eq_some_iff.1 found).2
          exact kept' name ⟨x', there, kept name (mine ▸ reported)⟩
        · refine kept' name ⟨players[j], ?_, reported⟩
          exact List.mem_of_getElem? (i := j) (by rw [List.getElem?_set_ne same]; simp [place])
      · rw [names', names, or_assoc]
        exact or_congr_right (or_iff_right_of_imp fun reported => kept' name ⟨x', there, reported⟩)

namespace Trainer

variable {s : Settings} {t next : Trainer}

/-- Steps on a trainer. One that fails leaves it as the steps before have made it. -/
abbrev InPlace := EStateM Error Trainer

namespace InPlace

def setOutcome (team : TeamId) (task : String) (value : Float) : InPlace Unit := do
  match (← get).population.team? team with
  | some found =>
    let found := { found with outcomes := found.outcomes.insert task value }
    modify fun t => { t with population := t.population.setTeam team found }
  | none => throw (.unknownTeam team)

/-- The outcome is written down first, and then its task is named. -/
def reportOutcome (team : TeamId) (task : String) (value : Float) : InPlace Unit := do
  setOutcome team task value
  modify fun t => { t with tasks := t.tasks.insert task }

/-- An outcome that is reported in place is the same, and one that is refused changes
nothing. -/
theorem reportOutcome_run (team : TeamId) (task : String) (value : Float) (t : Trainer) :
    (reportOutcome team task value).run t = match t.reportOutcome team task value with
      | .ok next => .ok () next
      | .error e => .error e t := by
  simp only [reportOutcome, setOutcome, Trainer.reportOutcome, Population.setOutcome,
    EStateM.run_bind, EStateM.run_get]
  cases t.population.team? team <;> rfl

end InPlace

theorem reportOutcome_missing {team : TeamId} (missing : t.population.containsTeam team = false)
    (task : String) (value : Float) :
    t.reportOutcome team task value = .error (.unknownTeam team) := by
  rw [Population.containsTeam_eq, Option.isSome_eq_false_iff, Option.isNone_iff_eq_none] at missing
  rw [reportOutcome, Population.setOutcome, missing]
  rfl

/-- A report is taken in if its team is there or nothing is in it. -/
def Accepts (t : Trainer) (report : Report) : Prop :=
  t.population.containsTeam report.team = true ∨ report.entries = []

theorem applyReports_cons {report : Report} (accepted : t.Accepts report) (reports : List Report) :
    applyReports (report :: reports) t = applyReports reports (t.recordedAll report.entries) := by
  obtain there | nothing := accepted
  · simp only [applyReports, reportOutcomes_eq there]
    rfl
  · have empty : report.outcomes.toList = [] := List.map_eq_nil_iff.1 nothing
    simp only [applyReports, empty, reportOutcomes, nothing]
    rfl

theorem applyReports_refused {report : Report} (refused : ¬t.Accepts report)
    (reports : List Report) :
    applyReports (report :: reports) t = (.error (.unknownTeam report.team), t) := by
  obtain ⟨missing, something⟩ := not_or.1 refused
  rw [Bool.not_eq_true] at missing
  cases entries : report.outcomes.toList with
  | nil => exact absurd (List.map_eq_nil_iff.2 entries) something
  | cons entry rest =>
    obtain ⟨task, value⟩ := entry
    simp only [applyReports, entries, reportOutcomes, reportOutcome_missing missing]

theorem accepts_recordedAll {os : List Outcome} {report : Report} :
    (t.recordedAll os).Accepts report ↔ t.Accepts report := by
  rw [Accepts, Accepts, containsTeam_recordedAll]

/-- Reports are taken in up to the first one that is refused. -/
theorem applyReports_cases (reports : List Report) (t : Trainer) :
    (∀ report ∈ reports, t.Accepts report) ∧
        applyReports reports t = (.ok (), t.recordedAll (reports.flatMap Report.entries)) ∨
      ∃ taken refused rest, reports = taken ++ refused :: rest ∧
        (∀ report ∈ taken, t.Accepts report) ∧ ¬t.Accepts refused ∧
        applyReports taken t = (.ok (), t.recordedAll (taken.flatMap Report.entries)) ∧
        applyReports reports t = (.error (.unknownTeam refused.team),
          t.recordedAll (taken.flatMap Report.entries)) := by
  induction reports generalizing t with
  | nil => exact .inl ⟨by simp, rfl⟩
  | cons report reports ih =>
    by_cases accepted : t.Accepts report
    case neg => exact .inr ⟨[], report, reports, rfl, by simp, accepted, rfl,
      applyReports_refused accepted reports⟩
    case pos =>
      have on (reports : List Report) :
          (t.recordedAll report.entries).recordedAll (reports.flatMap Report.entries) =
            t.recordedAll ((report :: reports).flatMap Report.entries) := by
        rw [List.flatMap_cons, recordedAll, recordedAll, recordedAll, List.foldl_append]
      have all {reports : List Report} (later : ∀ r ∈ reports,
          (t.recordedAll report.entries).Accepts r) : ∀ r ∈ report :: reports, t.Accepts r :=
        List.forall_mem_cons.2 ⟨accepted, fun r listed => accepts_recordedAll.1 (later r listed)⟩
      obtain ⟨later, run⟩ | ⟨taken, refused, rest, rfl, later, refusal, run, run'⟩ :=
        ih (t.recordedAll report.entries)
      · exact .inl ⟨all later, by rw [applyReports_cons accepted, run, on]⟩
      · refine .inr ⟨report :: taken, refused, rest, rfl, all later,
          mt accepts_recordedAll.2 refusal, ?_, ?_⟩
        · rw [applyReports_cons accepted, run, on]
        · rw [applyReports_cons accepted, run', on]

/-- What a refused report leaves: the reports before it are taken in, and nothing of it
or of those after it. -/
def StopsAt (t : Trainer) (reports : List Report) (e : Error) (next : Trainer) : Prop :=
  ∃ taken refused rest, reports = taken ++ refused :: rest ∧
    e = .unknownTeam refused.team ∧ t.population.containsTeam refused.team = false ∧
    refused.entries ≠ [] ∧ applyReports taken t = (.ok (), next) ∧
    next = t.recordedAll (taken.flatMap Report.entries)

theorem stopsAt_of_applyReports {reports : List Report} {e : Error}
    (run : applyReports reports t = (.error e, next)) : t.StopsAt reports e next := by
  obtain ⟨-, ok⟩ | ⟨taken, refused, rest, split, -, refusal, run', run''⟩ :=
    applyReports_cases reports t
  · simp [ok] at run
  · obtain ⟨failed, rfl⟩ := Prod.mk.inj (run''.symm.trans run)
    obtain ⟨missing, something⟩ := not_or.1 refusal
    exact ⟨taken, refused, rest, split, (Except.error.inj failed).symm,
      Bool.not_eq_true _ ▸ missing, something, run', rfl⟩

/-- What an evaluation leaves that ends with an error: the teams and their outcomes are
as they were. An agent has ended with the error, those before it have come to an end,
and the tasks of the rewards of all of them count. -/
structure Interrupted (t : Trainer) (query : AgentQuery) (environment : Environment) (e : Error)
    (next : Trainer) : Prop where
  population : next.population = t.population
  cause : ∃ done failing rest reports middle a c,
    t.agents query = done ++ failing :: rest ∧
    evaluateAll t.population environment done t.commons = .ok (.ok reports, middle) ∧
    (environment failing.team).run t.population failing middle = .ok (.error e, a, c) ∧
    next = t.withCommons c ∧
    ∀ name, name ∈ next.effectiveTasks [] ↔ name ∈ t.effectiveTasks [] ∨
      (∃ r ∈ reports, name ∈ r.outcomes) ∨ name ∈ a.reported

theorem mem_effectiveTasks_nil {name : String} : name ∈ t.effectiveTasks [] ↔ name ∈ t.tasks :=
  Std.ExtTreeSet.mem_toList

theorem reported_agents (t : Trainer) (query : AgentQuery) :
    ∀ a ∈ t.agents query, a.reported = {} := by
  intro a agent
  obtain ⟨id, -, rfl⟩ := List.mem_map.1 agent
  rfl

/-- The reports of agents are not refused: their teams are there. -/
theorem Sound.interrupted (sound : t.Sound s) {query : AgentQuery} {environment : Environment}
    {e : Error} (run : t.evaluate query environment = .ok (.error e, next)) :
    t.Interrupted query environment e next := by
  have fresh := t.reported_agents query
  obtain ⟨evaluated, c, evaluation, ⟨e', rfl, failed, rfl⟩ | ⟨reports, ended, rfl, applied, eq⟩⟩ :=
    evaluate_parts run
  case inl =>
    obtain rfl := Except.error.inj failed
    obtain ⟨done, failing, rest, reports, middle, a, split, ended, failure, names⟩ :=
      evaluateAll_error fresh evaluation
    refine ⟨rfl, done, failing, rest, reports, middle, a, c, split, ended, failure, rfl,
      fun name => ?_⟩
    rw [mem_effectiveTasks_nil, mem_effectiveTasks_nil]
    exact names name
  case inr =>
    have teams := (evaluateAll_names fresh evaluation).1
    have there : ∀ report ∈ reports,
        (t.withCommons c).population.containsTeam report.team = true := by
      intro report listed
      have agent : report.team ∈ (t.agents query).map Agent.team :=
        teams ▸ List.mem_map_of_mem listed
      obtain ⟨a, agent, eq⟩ := List.mem_map.1 agent
      exact eq ▸ (sound.unreferred (mem_roots_of_mem_agents agent)).1
    obtain ⟨rfl, -⟩ := Prod.mk.inj ((applyReports_eq there).symm.trans applied)
    cases eq

/-- What agents that take turns leave when their evaluation ends with an error: the teams
and their outcomes are as they were, the environment of some agent has ended with the
error, and the tasks of the rewards of all of them count. -/
structure Halted (t : Trainer) (query : AgentQuery) (environment : Environment) (e : Error)
    (next : Trainer) : Prop where
  population : next.population = t.population
  cause : ∃ schedule players c,
    play t.population schedule (t.players query environment) t.commons = .ok (players, c) ∧
    (∃ x ∈ players, x.todo = .finish (.error e)) ∧ next = t.withCommons c ∧
    ∀ name, name ∈ next.effectiveTasks [] ↔
      name ∈ t.effectiveTasks [] ∨ ∃ x ∈ players, name ∈ x.agent.reported

theorem effectiveTasks_play {query : AgentQuery} {environment : Environment}
    {schedule : List Nat} {players : List Player} {c : Commons}
    (played : play t.population schedule (t.players query environment) t.commons =
      .ok (players, c)) (name : String) :
    name ∈ (t.withCommons c).effectiveTasks [] ↔
      name ∈ t.effectiveTasks [] ∨ ∃ x ∈ players, name ∈ x.agent.reported := by
  rw [mem_effectiveTasks_nil, mem_effectiveTasks_nil]
  exact (play_names (t.players_named query environment) played).2 name

/-- However agents take turns, it is an environment that ends their evaluation with an
error: none of their reports is refused. -/
theorem Sound.halted (sound : t.Sound s) {query : AgentQuery} {environment : Environment}
    {e : Error} (run : t.Interleaves query environment (.error e) next) :
    t.Halted query environment e next := by
  generalize failed : (Except.error e : Except Error Nat) = result at run
  cases run with
  | stops played listed stopped =>
    obtain rfl := Except.error.inj failed
    exact ⟨rfl, _, _, _, played, ⟨_, listed, stopped⟩, rfl, effectiveTasks_play played⟩
  | @ends schedule players c ended next played done applied =>
    have there : ∀ report ∈ players.map (·.agent.report),
        (t.withCommons c).population.containsTeam report.team = true := by
      intro report listed
      obtain ⟨x, among, rfl⟩ := List.mem_map.1 listed
      have team : x.agent.team ∈ (t.players query environment).map (·.agent.team) :=
        teams_play played ▸ List.mem_map_of_mem among
      obtain ⟨y, among', same⟩ := List.mem_map.1 team
      have known := sound.players_there query environment y among'
      rw [same] at known
      exact known
    obtain ⟨rfl, -⟩ := Prod.mk.inj ((applyReports_eq there).symm.trans applied)
    cases failed

/-- An outcome of a team that is there, and one of a team that is not. -/
def mixedReports : List Report :=
  [⟨⟨0⟩, (∅ : Outcomes).insert "task" 1.0⟩, ⟨⟨9⟩, (∅ : Outcomes).insert "task" 1.0⟩]

/-- Each agent is rewarded, and then the environment ends with an error. -/
def quitting : Environment := fun _ =>
  .reward "task" 1.0 (.finish (.error (.unknownTeam ⟨9⟩)))

/-- At the start no task is named. A refused report leaves the one before it, and an
environment that ends with an error leaves the name of the task. -/
theorem small_fails : ∃ t, Lineage small t ∧ t.tasks = {} ∧ t.outcome? ⟨0⟩ "task" = none ∧
    t.population.containsTeam ⟨0⟩ = true ∧
    applyReports mixedReports t = (.error (.unknownTeam ⟨9⟩), t.recorded ⟨⟨0⟩, "task", 1.0⟩) ∧
    t.evaluate {} quitting =
      .ok (.error (.unknownTeam ⟨9⟩), t.withCommons ⟨t.tasks.insert "task", t.memory⟩) := by
  have run : ((start small (Stream.ofScript [])).toOption.bind (·.toOption)).map (fun t =>
      (t.population.teamIds, t.roots, (t.outcome? ⟨0⟩ "task").isNone)) =
        some ([⟨0⟩, ⟨1⟩], [⟨0⟩, ⟨1⟩], true) := by
    decide +kernel
  obtain ⟨t, started, eq⟩ := Option.map_eq_some_iff.1 run
  obtain ⟨teams, eq⟩ := Prod.mk.inj eq
  obtain ⟨roots, unscored⟩ := Prod.mk.inj eq
  obtain ⟨result, ok, started⟩ := Option.bind_eq_some_iff.1 started
  obtain rfl := ok_of_toOption started
  have lineage : Lineage small t := .start (ok_of_toOption ok)
  obtain ⟨-, stock, rest, -, eq⟩ := start_eq_ok (ok_of_toOption ok)
  have tasks : t.tasks = {} := congrArg Trainer.tasks eq
  have there : t.population.containsTeam ⟨0⟩ = true :=
    Population.mem_teamIds.1 (teams ▸ List.mem_cons_self)
  have missing : t.population.containsTeam ⟨9⟩ ≠ true := by
    rw [ne_eq, ← Population.mem_teamIds, teams]
    decide
  refine ⟨t, lineage, tasks, Option.isNone_iff_eq_none.1 unscored, there, ?_, ?_⟩
  · have entries (id : TeamId) : Report.entries ⟨id, (∅ : Outcomes).insert "task" 1.0⟩ =
        [⟨id, "task", 1.0⟩] := rfl
    have refused : ¬(t.recordedAll [⟨⟨0⟩, "task", 1.0⟩]).Accepts
        ⟨⟨9⟩, (∅ : Outcomes).insert "task" 1.0⟩ := by
      rw [accepts_recordedAll, Accepts, entries]
      simpa using missing
    rw [mixedReports, applyReports_cons (.inl there), entries, applyReports_refused refused]
    rfl
  · have agents : t.agents {} = [t.agentOf ⟨0⟩, t.agentOf ⟨1⟩] := by
      rw [Trainer.agents, lineage.sound.selected_all, roots]
      rfl
    rw [evaluate, agents]
    rfl

/-- Where the intake of outcomes fails, only what came before the failure counts: the
reports before a refused one, and of an evaluation the names of the tasks that agents
rewarded, however they take turns. -/
theorem Lineage.failed_intake (lineage : Lineage s t) :
    (∀ team task value e, t.reportOutcome team task value = .error e →
      e = .unknownTeam team ∧ t.population.containsTeam team = false ∧
        (InPlace.reportOutcome team task value).run t = .error e t ∧
        reportOutcomes team [(task, value)] t = (.error e, t)) ∧
    (∀ reports e next, applyReports reports t = (.error e, next) → t.StopsAt reports e next) ∧
    (∀ query environment e next, t.evaluate query environment = .ok (.error e, next) →
      t.Interrupted query environment e next ∧
        t.Interleaves query environment (.error e) next) ∧
    (∀ query environment e next, t.Interleaves query environment (.error e) next →
      t.Halted query environment e next) ∧
    ∀ query environment schedule players c,
      play t.population schedule (t.players query environment) t.commons = .ok (players, c) →
        ∀ name, name ∈ (t.withCommons c).effectiveTasks [] ↔
          name ∈ t.effectiveTasks [] ∨ ∃ x ∈ players, name ∈ x.agent.reported := by
  refine ⟨fun team task value e refused => ?_, fun reports e next => stopsAt_of_applyReports,
    fun query environment e next run => ⟨lineage.sound.interrupted run, evaluate_interleaves run⟩,
    fun query environment e next => lineage.sound.halted,
    fun query environment schedule players c => effectiveTasks_play⟩
  have in_place : (InPlace.reportOutcome team task value).run t = .error e t := by
    rw [InPlace.reportOutcome_run, refused]
  have missing : t.population.containsTeam team = false := by
    by_contra there
    rw [Bool.not_eq_false] at there
    have ok := reportOutcome_eq_ok (o := ⟨team, task, value⟩).2 ⟨there, rfl⟩
    cases ok.symm.trans refused
  have failed := reportOutcome_missing missing task value
  obtain rfl := Except.error.inj (refused.symm.trans failed)
  exact ⟨rfl, missing, in_place, by simp only [reportOutcomes, failed]⟩

/-- The outcome of a report stays although the next report is refused, and the task of a
reward is named although the evaluation fails. -/
theorem intake_not_atomic : ∃ t next next' e, Lineage small t ∧
    applyReports mixedReports t = (.error e, next) ∧
    t.outcome? ⟨0⟩ "task" ≠ next.outcome? ⟨0⟩ "task" ∧ "task" ∉ t.tasks ∧ "task" ∈ next.tasks ∧
    t.evaluate {} quitting = .ok (.error e, next') ∧
    "task" ∉ t.effectiveTasks [] ∧ "task" ∈ next'.effectiveTasks [] := by
  obtain ⟨t, lineage, tasks, unscored, there, applied, evaluated⟩ := small_fails
  have unnamed : "task" ∉ t.tasks := tasks ▸ Std.ExtTreeSet.not_mem_empty
  refine ⟨t, _, _, _, lineage, applied, ?_, unnamed, Std.ExtTreeSet.mem_insert_self, evaluated,
    mt mem_effectiveTasks_nil.1 unnamed, mem_effectiveTasks_nil.2 Std.ExtTreeSet.mem_insert_self⟩
  rw [unscored, outcome?_recorded there]
  simp

theorem failed_intake_in_small : ∃ t e next next', Lineage small t ∧
    applyReports mixedReports t = (.error e, next) ∧ t.StopsAt mixedReports e next ∧
    t.evaluate {} quitting = .ok (.error e, next') ∧ t.Interrupted {} quitting e next' ∧
    t.Halted {} quitting e next' := by
  obtain ⟨t, lineage, -, -, -, applied, evaluated⟩ := small_fails
  obtain ⟨-, stops, interrupted, halted, -⟩ := lineage.failed_intake
  obtain ⟨interrupts, interleaves⟩ := interrupted _ _ _ _ evaluated
  exact ⟨t, _, _, _, lineage, applied, stops _ _ _ applied, evaluated, interrupts,
    halted _ _ _ _ interleaves⟩

end Trainer

end TangledGraph
