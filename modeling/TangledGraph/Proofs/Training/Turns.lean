import Mathlib.Logic.Function.Iterate
import TangledGraph.Proofs.Graph.Decision
import TangledGraph.Proofs.Training.Interactions

/-!
# Interactions turn by turn

An interaction of an agent is a series of turns. An agent has registers, bids and draws
of its own, and it changes no team and no learner. So without a memory, what a turn
makes of it does not depend on what others do, and all that others find out is which
tasks it named.
-/
namespace TangledGraph

/-- An agent, what its environment is going to do with it, and what it answered. -/
structure Player where
  agent : Agent
  todo : Interaction
  answers : List (Except Error Code) := []

namespace Player

/-- The environment makes one call, if it is not done. -/
def turn (p : Population) (x : Player) (c : Commons) : Except Fault (Player × Commons) :=
  match x.todo with
  | .finish _ => pure (x, c)
  | .act input next => do
    let (answer, agent, c) ← x.agent.act p input c
    pure (⟨agent, next answer, x.answers ++ [answer]⟩, c)
  | .reward task value next =>
    let (agent, c) := x.agent.reward task value c
    pure ({ x with agent, todo := next }, c)
  | .taskDone task next => pure ({ x with todo := next (x.agent.isTaskDone task) }, c)
  | .reset next => pure ({ x with agent := x.agent.reset, todo := next }, c)
  | .inspect next => pure ({ x with todo := next x.agent.context }, c)

/-- A number of turns with nobody else's in between. -/
def turns (p : Population) : Nat → Player → Commons → Except Fault (Player × Commons)
  | 0, x, c => pure (x, c)
  | n + 1, x, c => do
    let (x, c) ← x.turn p c
    turns p n x c

/-- What a turn makes of a player if there is no memory. -/
def next (p : Population) (x : Player) : Player :=
  match x.turn p ⟨{}, none⟩ with
  | .ok (x, _) => x
  | .error _ => x

/-- The names of tasks after a turn. -/
def noted (x : Player) (tasks : TaskNames) : TaskNames :=
  match x.todo with
  | .reward task _ _ => tasks.insert task
  | _ => tasks

/-- The outcomes reported after a turn. -/
def rewarded (x : Player) : Outcomes :=
  match x.todo with
  | .reward task value _ => x.agent.reported.insert task value
  | _ => x.agent.reported

/-- All tasks that were reported are named. -/
def Named (x : Player) (tasks : TaskNames) : Prop := ∀ name ∈ x.agent.reported, name ∈ tasks

/-- After some turns the environment is done. -/
def Ends (p : Population) (x : Player) : Prop :=
  ∃ (n : Nat) (result : Except Error Unit), ((next p)^[n] x).todo = .finish result

/-- A player is what another one becomes by itself in a number of turns, and if its
environment is done, then it is as the whole interaction leaves it. -/
structure Alone (p : Population) (c : Commons) (x : Player) (n : Nat) (x' : Player) :
    Prop where
  turns : ∃ c', x.turns p n c = .ok (x', c')
  run : ∀ result, x'.todo = .finish result →
    ∃ c', x.todo.run p x.agent c = .ok (result, x'.agent, c')

variable {p : Population} {x x' : Player} {c c' : Commons} {tasks : TaskNames} {name : String}

theorem turn_finish {result : Except Error Unit} (done : x.todo = .finish result) :
    x.turn p c = .ok (x, c) := by
  rw [turn, done]
  rfl

theorem next_finish {result : Except Error Unit} (done : x.todo = .finish result) :
    x.next p = x := by
  rw [next, turn_finish done]

theorem iterate_of_le {n m : Nat} {result : Except Error Unit}
    (done : ((next p)^[n] x).todo = .finish result) (le : n ≤ m) :
    (next p)^[m] x = (next p)^[n] x := by
  obtain ⟨k, rfl⟩ := Nat.exists_eq_add_of_le' le
  rw [Function.iterate_add_apply, Function.iterate_fixed (next_finish done)]

theorem mem_rewarded (reported : name ∈ x.agent.reported) : name ∈ x.rewarded := by
  unfold rewarded
  split
  · exact Std.ExtTreeMap.mem_insert.2 (.inr reported)
  · exact reported

/-- A turn names the tasks that are reported in it. -/
theorem mem_noted (named : x.Named tasks) :
    name ∈ x.noted tasks ↔ name ∈ tasks ∨ name ∈ x.rewarded := by
  unfold noted rewarded
  split
  · simp only [Std.ExtTreeSet.mem_insert, Std.ExtTreeMap.mem_insert]
    constructor
    · rintro (same | before)
      · exact .inr (.inl same)
      · exact .inl before
    · rintro (before | same | reported)
      · exact .inr before
      · exact .inl same
      · exact .inr (named name reported)
  · exact ⟨.inl, fun h => h.elim id (named name)⟩

/-- Whatever the agent decides, a turn is for its team, and writes down a reward. -/
theorem turn_writes (run : x.turn p c = .ok (x', c')) :
    x'.agent.team = x.agent.team ∧ x'.agent.reported = x.rewarded ∧
      c'.tasks = x.noted c.tasks := by
  unfold rewarded noted
  unfold turn at run
  split at run
  case h_2 input next todo =>
    simp only [bind_eq_ok, Prod.exists, Agent.act_eq_ok] at run
    obtain ⟨_, _, _, ⟨mind, -, rfl, rfl⟩, turned⟩ := run
    obtain ⟨rfl, rfl⟩ := Prod.mk.inj (pure_eq_ok.1 turned)
    simp only [todo, and_self]
  all_goals
    rename_i todo
    obtain ⟨rfl, rfl⟩ := Prod.mk.inj (pure_eq_ok.1 run)
    simp only [todo, Agent.reset, and_self]

theorem turns_of_turn {y : Player} {middle : Commons} {reached : Player → Prop}
    (turn : x.turn p c = .ok (y, middle))
    (rest : ∃ n z, y.turns p n middle = .ok (z, c') ∧ reached z) :
    ∃ n z, x.turns p n c = .ok (z, c') ∧ reached z := by
  obtain ⟨n, z, turns, ended⟩ := rest
  exact ⟨n + 1, z, bind_eq_ok.2 ⟨_, turn, turns⟩, ended⟩

/-- A whole interaction is a number of turns in a row. -/
theorem turns_of_run {result : Except Error Unit} {a : Agent}
    (run : x.todo.run p x.agent c = .ok (result, a, c')) :
    ∃ n y, x.turns p n c = .ok (y, c') ∧ y.agent = a ∧ y.todo = .finish result := by
  generalize todo : x.todo = interaction at run
  induction interaction generalizing x c with
  | finish ended =>
    obtain ⟨rfl, rfl, rfl⟩ := Interaction.run_finish_eq_ok.1 run
    exact ⟨0, x, rfl, rfl, todo⟩
  | act input answered ih =>
    obtain ⟨answer, mind, decided, run⟩ := Interaction.run_act_eq_ok.1 run
    have act := Agent.act_eq_ok.2 ⟨mind, decided, rfl, rfl⟩
    have turn : x.turn p c = .ok (⟨{ x.agent with context := mind.context }, answered answer,
        x.answers ++ [answer]⟩, { c with memory := mind.memory }) := by
      simp only [Player.turn, todo, act]
      rfl
    exact turns_of_turn turn (ih answer rfl run)
  | taskDone task answered ih =>
    let y : Player := { x with todo := answered (x.agent.isTaskDone task) }
    have turn : x.turn p c = .ok (y, c) := by simp only [Player.turn, todo]; rfl
    exact turns_of_turn turn (ih _ rfl run)
  | inspect answered ih =>
    let y : Player := { x with todo := answered x.agent.context }
    have turn : x.turn p c = .ok (y, c) := by simp only [Player.turn, todo]; rfl
    exact turns_of_turn turn (ih _ rfl run)
  | reward task value rest ih =>
    have turn : x.turn p c = .ok ({ x with agent := (x.agent.reward task value c).1, todo := rest },
        (x.agent.reward task value c).2) := by
      simp only [Player.turn, todo]
      rfl
    exact turns_of_turn turn (ih rfl run)
  | reset rest ih =>
    let y : Player := { x with agent := x.agent.reset, todo := rest }
    have turn : x.turn p c = .ok (y, c) := by simp only [Player.turn, todo]; rfl
    exact turns_of_turn turn (ih rfl run)

theorem ends_of_next (h : (x.next p).Ends p) : x.Ends p := by
  obtain ⟨n, result, done⟩ := h
  exact ⟨n + 1, result, done⟩

section Memoryless

variable (complete : p.Complete) (there : p.containsTeam x.agent.team = true)
include complete there

/-- Without a memory, a decision is of an agent alone. -/
theorem act_eq (input : Array Float) : ∃ code context,
    ∀ tasks, x.agent.act p input ⟨tasks, none⟩ =
      .ok (.ok code, { x.agent with context }, ⟨tasks, none⟩) := by
  have full : Mind.Full ⟨x.agent.context.beginFrame, none⟩ := by simp [Mind.Full]
  obtain ⟨code, w, decided, -⟩ := Population.decideFrom_ok complete there full input
  have act : p.act x.agent.team input ⟨x.agent.context, none⟩ = .ok (.ok code, w.mind) := by
    rw [Population.act_eq_decideFrom there, decided]
    rfl
  have kept : w.mind.memory = none := by simpa using Population.act_memory act
  refine ⟨code, w.mind.context, fun tasks => ?_⟩
  simp only [Agent.act, act, bind, Except.bind, pure, Except.pure, kept]

/-- Without a memory, what a turn makes of a player does not depend on others. -/
theorem turn_eq (memoryless : c.memory = none) :
    x.turn p c = .ok (x.next p, ⟨x.noted c.tasks, none⟩) := by
  obtain ⟨tasks, memory⟩ := c
  obtain rfl : memory = none := memoryless
  cases todo : x.todo with
  | act input answered =>
    obtain ⟨code, context, act⟩ := act_eq complete there input
    simp only [next, turn, noted, todo, act, bind, Except.bind, pure, Except.pure]
  | _ => simp only [next, turn, noted, todo]; rfl

theorem team_next : (x.next p).agent.team = x.agent.team :=
  (turn_writes (turn_eq complete there (c := ⟨{}, none⟩) rfl)).1

theorem reported_next : (x.next p).agent.reported = x.rewarded :=
  (turn_writes (turn_eq complete there (c := ⟨{}, none⟩) rfl)).2.1

/-- An interaction goes on after a turn as before it. -/
theorem run_next (memoryless : c.memory = none) :
    x.todo.run p x.agent c =
      (x.next p).todo.run p (x.next p).agent ⟨x.noted c.tasks, none⟩ := by
  obtain ⟨tasks, memory⟩ := c
  obtain rfl : memory = none := memoryless
  cases todo : x.todo with
  | act input answered =>
    obtain ⟨code, context, act⟩ := act_eq complete there input
    simp only [next, turn, noted, todo, act, Interaction.run, bind, Except.bind, pure, Except.pure]
  | finish result => rw [next_finish todo, todo, noted, todo]
  | _ => simp only [next, turn, noted, todo]; rfl

/-- What a turn names does not count where the reports after it count as well. -/
theorem mem_noted_or (named : x.Named tasks) {q : Prop}
    (counts : name ∈ (x.next p).agent.reported → q) :
    name ∈ x.noted tasks ∨ q ↔ name ∈ tasks ∨ q := by
  rw [mem_noted named, or_assoc, ← reported_next complete there]
  exact or_congr_right (or_iff_right_of_imp counts)

theorem named_next (named : x.Named tasks) : (x.next p).Named (x.noted tasks) := by
  intro name reported
  rw [reported_next complete there] at reported
  exact (mem_noted named).2 (.inr reported)

end Memoryless

section Memoryless

variable (complete : p.Complete)
include complete

theorem team_iterate (there : p.containsTeam x.agent.team = true) (n : Nat) :
    ((next p)^[n] x).agent.team = x.agent.team := by
  induction n generalizing x with
  | zero => rfl
  | succ n ih =>
    have team := team_next complete there
    exact (ih (team ▸ there)).trans team

theorem mem_reported_iterate (there : p.containsTeam x.agent.team = true)
    (reported : name ∈ x.agent.reported) (n : Nat) :
    name ∈ ((next p)^[n] x).agent.reported := by
  induction n generalizing x with
  | zero => exact reported
  | succ n ih =>
    refine ih (team_next complete there ▸ there) ?_
    rw [reported_next complete there]
    exact mem_rewarded reported

/-- Without a memory, turns in a row come to the same whatever was named before. -/
theorem turns_eq (there : p.containsTeam x.agent.team = true) (memoryless : c.memory = none)
    (n : Nat) : ∃ tasks, x.turns p n c = .ok ((next p)^[n] x, ⟨tasks, none⟩) := by
  induction n generalizing x c with
  | zero => exact ⟨c.tasks, memoryless ▸ rfl⟩
  | succ n ih =>
    obtain ⟨tasks, rest⟩ := ih (c := ⟨x.noted c.tasks, none⟩)
      (team_next complete there ▸ there) rfl
    refine ⟨tasks, ?_⟩
    rw [turns, turn_eq complete there memoryless]
    exact rest

/-- An environment that is done after some turns has done what it does by itself. -/
theorem run_eq (there : p.containsTeam x.agent.team = true) (memoryless : c.memory = none)
    (named : x.Named c.tasks) {n : Nat} {result : Except Error Unit}
    (done : ((next p)^[n] x).todo = .finish result) :
    ∃ tasks, x.todo.run p x.agent c = .ok (result, ((next p)^[n] x).agent, ⟨tasks, none⟩) ∧
      ∀ name, name ∈ tasks ↔ name ∈ c.tasks ∨ name ∈ ((next p)^[n] x).agent.reported := by
  induction n generalizing x c with
  | zero =>
    obtain ⟨tasks, memory⟩ := c
    obtain rfl : memory = none := memoryless
    have finished : x.todo = .finish result := done
    refine ⟨tasks, by rw [finished]; rfl, fun name => ⟨.inl, fun h => h.elim id (named name)⟩⟩
  | succ n ih =>
    obtain ⟨tasks, run, mem⟩ := ih (c := ⟨x.noted c.tasks, none⟩)
      (team_next complete there ▸ there) rfl (named_next complete there named) done
    have there' := team_next complete there ▸ there
    exact ⟨tasks, (run_next complete there memoryless).trans run,
      fun name => (mem name).trans (mem_noted_or complete there named fun reported =>
        mem_reported_iterate complete there' reported n)⟩

theorem alone_iterate (there : p.containsTeam x.agent.team = true) (memoryless : c.memory = none)
    (named : x.Named c.tasks) (n : Nat) : x.Alone p c n ((next p)^[n] x) where
  turns := by
    obtain ⟨tasks, run⟩ := turns_eq complete there memoryless n
    exact ⟨_, run⟩
  run result done := by
    obtain ⟨tasks, run, -⟩ := run_eq complete there memoryless named done
    exact ⟨_, run⟩

/-- Every environment is done after some turns. -/
theorem ends (there : p.containsTeam x.agent.team = true) : x.Ends p := by
  generalize todo : x.todo = interaction
  induction interaction generalizing x with
  | finish result => exact ⟨0, result, todo⟩
  | act input answered ih =>
    obtain ⟨code, context, act⟩ := act_eq complete there input
    refine ends_of_next (ih (.ok code) (team_next complete there ▸ there) ?_)
    simp only [next, turn, todo, act, bind, Except.bind, pure, Except.pure]
  | taskDone task answered ih =>
    refine ends_of_next (ih (x.agent.isTaskDone task) (team_next complete there ▸ there) ?_)
    simp only [next, turn, todo]
    rfl
  | inspect answered ih =>
    refine ends_of_next (ih x.agent.context (team_next complete there ▸ there) ?_)
    simp only [next, turn, todo]
    rfl
  | reward task value rest ih | reset rest ih =>
    refine ends_of_next (ih (team_next complete there ▸ there) ?_)
    simp only [next, turn, todo]
    rfl

end Memoryless

end Player

end TangledGraph
