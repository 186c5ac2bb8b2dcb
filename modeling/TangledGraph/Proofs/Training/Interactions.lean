import TangledGraph.Proofs.Graph.Presence
import TangledGraph.Training.Agent

/-!
# What interactions leave alone

Agents write what they share in two ways only: a decision may write the memory, and a
reward names its task. So what these two keep, every interaction keeps, and so do agents
that interact one after another, whether or not one of them ends with an error. A memory stays, and
no name is taken back.
-/
namespace TangledGraph

variable {p : Population} {a a' : Agent} {c c' : Commons}

/-- A decision of an agent is one of its team, with the memory that is shared. -/
theorem Agent.act_eq_ok {input : Array Float} {result : Except Error Code} :
    a.act p input c = .ok (result, a', c') ↔
      ∃ mind, p.act a.team input ⟨a.context, c.memory⟩ = .ok (result, mind) ∧
        a' = { a with context := mind.context } ∧ c' = { c with memory := mind.memory } := by
  simp only [act, bind_eq_ok, pure_eq_ok, Prod.mk.injEq]
  constructor
  · rintro ⟨⟨_, mind⟩, decided, rfl, rfl, rfl⟩
    exact ⟨mind, decided, rfl, rfl⟩
  · rintro ⟨mind, decided, rfl, rfl⟩
    exact ⟨_, decided, rfl, rfl, rfl⟩

theorem Interaction.run_finish_eq_ok {ended result : Except Error Unit} :
    (finish ended).run p a c = .ok (result, a', c') ↔ ended = result ∧ a = a' ∧ c = c' := by
  simp only [run, pure_eq_ok, Prod.mk.injEq]

/-- An environment goes on with the answer of the agent, and with what the decision made
of the agent and the memory. -/
theorem Interaction.run_act_eq_ok {input : Array Float} {next : Except Error Code → Interaction}
    {result : Except Error Unit} :
    (act input next).run p a c = .ok (result, a', c') ↔
      ∃ answer mind, p.act a.team input ⟨a.context, c.memory⟩ = .ok (answer, mind) ∧
        (next answer).run p { a with context := mind.context }
          { c with memory := mind.memory } = .ok (result, a', c') := by
  simp only [run, bind_eq_ok, Prod.exists, Agent.act_eq_ok]
  constructor
  · rintro ⟨answer, _, _, ⟨mind, decided, rfl, rfl⟩, rest⟩
    exact ⟨answer, mind, decided, rest⟩
  · rintro ⟨answer, mind, decided, rest⟩
    exact ⟨answer, _, _, ⟨mind, decided, rfl, rfl⟩, rest⟩

/-- The first of some agents ends with an error, which is what comes of all of them, or it
has a report to go in front of those of the others. -/
theorem evaluateAll_cons_eq_ok {environment : Environment} {agents : List Agent}
    {result : Except Error (List Report)} :
    evaluateAll p environment (a :: agents) c = .ok (result, c') ↔
      (∃ e a', (environment a.team).run p a c = .ok (.error e, a', c') ∧ result = .error e) ∨
        ∃ a' middle later, (environment a.team).run p a c = .ok (.ok (), a', middle) ∧
          evaluateAll p environment agents middle = .ok (later, c') ∧
            result = later.map (a'.report :: ·) := by
  simp only [evaluateAll, bind_eq_ok, Prod.exists]
  constructor
  · rintro ⟨ended, a', middle, interaction, rest⟩
    cases ended with
    | error e =>
      obtain ⟨rfl, rfl⟩ := Prod.mk.inj (pure_eq_ok.1 rest)
      exact .inl ⟨e, a', interaction, rfl⟩
    | ok _ =>
      simp only [bind_eq_ok, Prod.exists, pure_eq_ok, Prod.mk.injEq] at rest
      obtain ⟨later, _, evaluation, rfl, rfl⟩ := rest
      exact .inr ⟨a', middle, later, interaction, evaluation, rfl⟩
  · rintro (⟨e, a', interaction, rfl⟩ | ⟨a', middle, later, interaction, evaluation, rfl⟩)
    · exact ⟨_, a', c', interaction, rfl⟩
    · exact ⟨_, a', middle, interaction, bind_eq_ok.2 ⟨_, evaluation, rfl⟩⟩

/-- Agents that all come to a good end have a report each. -/
theorem evaluateAll_cons_eq_ok_ok {environment : Environment} {agents : List Agent}
    {reports : List Report} :
    evaluateAll p environment (a :: agents) c = .ok (.ok reports, c') ↔
      ∃ a' middle later, (environment a.team).run p a c = .ok (.ok (), a', middle) ∧
        evaluateAll p environment agents middle = .ok (.ok later, c') ∧
          reports = a'.report :: later := by
  rw [evaluateAll_cons_eq_ok]
  constructor
  · rintro (⟨e, _, _, ended⟩ | ⟨a', middle, later, interaction, evaluation, ended⟩)
    · cases ended
    · cases later with
      | error e => cases ended
      | ok later => exact ⟨a', middle, later, interaction, evaluation, Except.ok.inj ended⟩
  · rintro ⟨a', middle, later, interaction, evaluation, rfl⟩
    exact .inr ⟨a', middle, .ok later, interaction, evaluation, rfl⟩

/-- An agent keeps its team and what it has reported. -/
theorem Interaction.run_keeps (i : Interaction) {result : Except Error Unit}
    (run : i.run p a c = .ok (result, a', c')) :
    a'.team = a.team ∧ ∀ name ∈ a.reported, name ∈ a'.reported := by
  induction i generalizing a c with
  | finish ended =>
    obtain ⟨-, rfl, -⟩ := run_finish_eq_ok.1 run
    exact ⟨rfl, fun _ => id⟩
  | act input next ih =>
    obtain ⟨answer, mind, -, rest⟩ := run_act_eq_ok.1 run
    exact ih answer (a := { a with context := mind.context }) rest
  | reward task value next ih =>
    obtain ⟨team, kept⟩ := ih run
    exact ⟨team, fun name reported => kept name (Std.ExtTreeMap.mem_insert.2 (.inr reported))⟩
  | taskDone task next ih => exact ih _ run
  | reset next ih => exact ih (a := a.reset) run
  | inspect next ih => exact ih _ run

section Invariants

variable (I : Commons → Prop)
  (decides : ∀ {c : Commons} {t input context result mind}, I c →
    p.act t input ⟨context, c.memory⟩ = .ok (result, mind) → I { c with memory := mind.memory })
  (names : ∀ {c : Commons} (task : String), I c → I { c with tasks := c.tasks.insert task })
include decides names

theorem Interaction.run_invariant (i : Interaction) {result : Except Error Unit} (start : I c)
    (run : i.run p a c = .ok (result, a', c')) : I c' := by
  induction i generalizing a c with
  | finish ended =>
    obtain ⟨-, -, rfl⟩ := run_finish_eq_ok.1 run
    exact start
  | act input next ih =>
    obtain ⟨answer, mind, decided, rest⟩ := run_act_eq_ok.1 run
    exact ih answer (decides start decided) rest
  | reward task value next ih => exact ih (names task start) run
  | taskDone task next ih => exact ih _ start run
  | reset next ih => exact ih start run
  | inspect next ih => exact ih _ start run

theorem evaluateAll_invariant {environment : Environment} {agents : List Agent}
    {result : Except Error (List Report)} (start : I c)
    (run : evaluateAll p environment agents c = .ok (result, c')) : I c' := by
  induction agents generalizing c result with
  | nil => exact (Prod.mk.inj (pure_eq_ok.1 run)).2 ▸ start
  | cons a agents ih =>
    obtain ⟨_, _, interaction, -⟩ | ⟨_, middle, _, interaction, rest, -⟩ :=
      evaluateAll_cons_eq_ok.1 run
    · exact Interaction.run_invariant I decides names _ start interaction
    · exact ih (Interaction.run_invariant I decides names _ start interaction) rest

end Invariants

section Kept

variable {i : Interaction} {environment : Environment} {agents : List Agent}
  {ended : Except Error Unit} {result : Except Error (List Report)}

/-- A decision leaves a memory of the same shape where there is one. -/
theorem Commons.decides_memory {t : TeamId} {input : Array Float} {context : Context}
    {answer : Except Error Code} {mind : Mind} {before : Option (Nat × Nat × Nat)}
    (kept : c.memory.map Memory.shape = before)
    (run : p.act t input ⟨context, c.memory⟩ = .ok (answer, mind)) :
    mind.memory.map Memory.shape = before :=
  (Population.act_memory run).trans kept

theorem Interaction.run_memory (run : i.run p a c = .ok (ended, a', c')) :
    c'.memory.map Memory.shape = c.memory.map Memory.shape :=
  run_invariant (fun d => d.memory.map Memory.shape = c.memory.map Memory.shape)
    Commons.decides_memory (fun _ => id) i rfl run

theorem evaluateAll_memory (run : evaluateAll p environment agents c = .ok (result, c')) :
    c'.memory.map Memory.shape = c.memory.map Memory.shape :=
  evaluateAll_invariant (fun d => d.memory.map Memory.shape = c.memory.map Memory.shape)
    Commons.decides_memory (fun _ => id) rfl run

/-- One more name takes none back. -/
theorem Commons.names_tasks {tasks : TaskNames} (task : String)
    (kept : ∀ name ∈ tasks, name ∈ c.tasks) : ∀ name ∈ tasks, name ∈ c.tasks.insert task :=
  fun name before => Std.ExtTreeSet.mem_insert.2 (.inr (kept name before))

theorem Interaction.run_tasks (run : i.run p a c = .ok (ended, a', c')) :
    ∀ name ∈ c.tasks, name ∈ c'.tasks :=
  run_invariant (fun d => ∀ name ∈ c.tasks, name ∈ d.tasks) (fun kept _ => kept)
    Commons.names_tasks i (fun _ => id) run

theorem evaluateAll_tasks (run : evaluateAll p environment agents c = .ok (result, c')) :
    ∀ name ∈ c.tasks, name ∈ c'.tasks :=
  evaluateAll_invariant (fun d => ∀ name ∈ c.tasks, name ∈ d.tasks) (fun kept _ => kept)
    Commons.names_tasks (fun _ => id) run

end Kept

end TangledGraph
