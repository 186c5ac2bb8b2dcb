import TangledGraph.Graph.Document
import TangledGraph.Proofs.Json.Stored

/-!
# Graphs that are read back

Counters, programs, learners and teams are read back if their numbers have the
size of stored ones and their floats are finite. Only a fitness that is not
finite is stored as none.
-/
namespace TangledGraph

open Json

/-- The pairs of a map build it up again. -/
theorem foldl_insert_toList {α β : Type} [Ord α] [Std.TransOrd α] [Std.LawfulEqOrd α]
    [DecidableEq α] (m : Std.ExtTreeMap α β) :
    m.toList.foldl (fun m (k, v) => m.insert k v) {} = m := by
  have built : m.toList.foldl (fun m (k, v) => m.insert k v) {} =
    Std.ExtTreeMap.ofList m.toList compare := Std.ExtTreeMap.ofList_eq_foldl.symm
  rw [built]
  apply Std.ExtTreeMap.ext_getElem?
  intro k
  cases at_k : m[k]? with
  | some v =>
    exact Std.ExtTreeMap.getElem?_ofList_of_mem Std.ReflCmp.compare_self
      Std.ExtTreeMap.distinct_keys_toList (Std.ExtTreeMap.mem_toList_iff_getElem?_eq_some.2 at_k)
  | none =>
    apply Std.ExtTreeMap.getElem?_ofList_of_contains_eq_false
    rw [Std.ExtTreeMap.map_fst_toList_eq_keys, Std.ExtTreeMap.contains_keys,
      Std.ExtTreeMap.contains_eq_isSome_getElem?, at_k]
    rfl

theorem TeamId.returns : Returns TeamId.toJson TeamId.ofJson? fun t => IsWord t.val :=
  returns_ofNat.wrap TeamId.mk TeamId.val fun _ => rfl

theorem LearnerId.returns : Returns LearnerId.toJson LearnerId.ofJson? fun l => IsWord l.val :=
  returns_ofNat.wrap LearnerId.mk LearnerId.val fun _ => rfl

theorem ProgramId.returns : Returns ProgramId.toJson ProgramId.ofJson? fun p => IsWord p.val :=
  returns_ofNat.wrap ProgramId.mk ProgramId.val fun _ => rfl

namespace Counters

structure Fits (c : Counters) : Prop where
  team : IsWord c.team
  learner : IsWord c.learner
  program : IsWord c.program

instance (c : Counters) : Decidable c.Fits :=
  decidable_of_iff (_ ∧ _ ∧ _) ⟨fun ⟨a, b, c⟩ => ⟨a, b, c⟩, fun ⟨a, b, c⟩ => ⟨a, b, c⟩⟩

theorem fits_of_ofJson? {j : Json} {c : Counters} (read : Counters.ofJson? j = some c) :
    c.Fits := by
  simp only [Counters.ofJson?, required, Option.bind_eq_bind, Option.bind_eq_some_iff,
    Option.pure_def, Option.some.injEq] at read
  obtain ⟨_, -, team, ⟨_, -, ht⟩, learner, ⟨_, -, hl⟩, program, ⟨_, -, hp⟩, rfl⟩ := read
  exact ⟨isWord_of_natural? ht, isWord_of_natural? hl, isWord_of_natural? hp⟩

theorem ofJson?_object (i j k : Json) (c : Counters) :
    Counters.ofJson? (object [("next_team", i), ("next_learner", j), ("next_program", k)]) =
        some c ↔
      natural? i = some c.team ∧ natural? j = some c.learner ∧ natural? k = some c.program := by
  rw [Counters.ofJson?, record?_object]
  case nodup => decide
  case all => rfl
  simp only [↓fields_eq_some, Option.pure_def, Option.some.injEq]
  constructor
  · rintro ⟨_, rfl, _, team, _, learner, _, program, rfl⟩
    exact ⟨team, learner, program⟩
  · rintro ⟨team, learner, program⟩
    exact ⟨_, rfl, _, team, _, learner, _, program, rfl⟩

theorem returns : Returns Counters.toJson Counters.ofJson? Fits := by
  intro c d
  have document : c.toJson.written = object [("next_team", (ofNat c.team).written),
      ("next_learner", (ofNat c.learner).written), ("next_program", (ofNat c.program).written)] :=
    rfl
  rw [document, ofJson?_object, returns_ofNat.eq_some, returns_ofNat.eq_some,
    returns_ofNat.eq_some]
  obtain ⟨_, _, _⟩ := c
  obtain ⟨_, _, _⟩ := d
  simp only [mk.injEq]
  constructor
  · rintro ⟨⟨team, rfl⟩, ⟨learner, rfl⟩, program, rfl⟩
    exact ⟨⟨team, learner, program⟩, rfl, rfl, rfl⟩
  · rintro ⟨⟨team, learner, program⟩, rfl, rfl, rfl⟩
    exact ⟨⟨team, rfl⟩, ⟨learner, rfl⟩, program, rfl⟩

end Counters

namespace Code

/-- A whole number has the size of a stored one, or all numbers are finite. -/
def Fits : Code → Prop
  | discrete n => IsSignedWord n
  | real xs => ∀ x ∈ xs, x.isFinite = true

theorem ofJson?_discrete (j : Json) (c : Code) :
    Code.ofJson? (object [("Discrete", j)]) = some c ↔ ∃ n, whole? j = some n ∧ discrete n = c := by
  simp [Code.ofJson?, variant?, Option.bind_eq_some_iff]

theorem ofJson?_real (j : Json) (c : Code) :
    Code.ofJson? (object [("Real", j)]) = some c ↔
      ∃ xs, list? float? j = some xs ∧ real xs = c := by
  simp [Code.ofJson?, variant?, Option.bind_eq_some_iff]

theorem returns : Returns Code.toJson Code.ofJson? Fits := by
  intro c d
  cases c with
  | discrete n =>
    have document : (discrete n).toJson.written =
      object [("Discrete", (Json.integer n).written)] := rfl
    rw [document, ofJson?_discrete]
    simp only [returns_integer.eq_some, and_assoc, exists_and_left, exists_eq_left', Fits]
  | real xs =>
    have document : (real xs).toJson.written =
      object [("Real", (ofList Json.real xs).written)] := rfl
    rw [document, ofJson?_real]
    simp only [returns_real.list.eq_some, and_assoc, exists_and_left, exists_eq_left', Fits]

end Code

namespace Action

def Fits : Action → Prop
  | atomic code => code.Fits
  | team t => IsWord t.val

theorem ofJson?_atomic (j : Json) (a : Action) :
    Action.ofJson? (object [("Atomic", j)]) = some a ↔
      ∃ code, Code.ofJson? j = some code ∧ atomic code = a := by
  simp [Action.ofJson?, variant?, Option.bind_eq_some_iff]

theorem ofJson?_team (j : Json) (a : Action) :
    Action.ofJson? (object [("Team", j)]) = some a ↔
      ∃ t, TeamId.ofJson? j = some t ∧ team t = a := by
  simp [Action.ofJson?, variant?, Option.bind_eq_some_iff]

theorem returns : Returns Action.toJson Action.ofJson? Fits := by
  intro a b
  cases a with
  | atomic code =>
    have document : (atomic code).toJson.written = object [("Atomic", code.toJson.written)] := rfl
    rw [document, ofJson?_atomic]
    simp only [Code.returns.eq_some, and_assoc, exists_and_left, exists_eq_left', Fits]
  | team t =>
    have document : (team t).toJson.written = object [("Team", t.toJson.written)] := rfl
    rw [document, ofJson?_team]
    simp only [TeamId.returns.eq_some, and_assoc, exists_and_left, exists_eq_left', Fits]

end Action

theorem Mode.returns : Returns (fun m => string (Mode.name m))
    (fun j => (choice? j).bind Mode.ofName?) fun _ => True := by
  intro m n
  cases m <;> simp [written, choice?, Mode.name, Mode.ofName?]

theorem Operation.returns : Returns (fun o => string (Operation.name o))
    (fun j => (choice? j).bind Operation.ofName?) fun _ => True := by
  intro o n
  cases o <;> simp [written, choice?, Operation.name, Operation.ofName?]

namespace Instruction

structure Fits (i : Instruction) : Prop where
  dest : IsWord i.dest
  src : IsWord i.src

instance (i : Instruction) : Decidable i.Fits :=
  decidable_of_iff (_ ∧ _) ⟨fun ⟨a, b⟩ => ⟨a, b⟩, fun ⟨a, b⟩ => ⟨a, b⟩⟩

theorem ofJson?_object (m o d s : Json) (i : Instruction) :
    Instruction.ofJson? (object [("mode", m), ("op", o), ("dest", d), ("src", s)]) = some i ↔
      (choice? m).bind Mode.ofName? = some i.mode ∧
        (choice? o).bind Operation.ofName? = some i.op ∧
        natural? d = some i.dest ∧ natural? s = some i.src := by
  rw [Instruction.ofJson?, record?_object]
  case nodup => decide
  case all => rfl
  simp only [↓fields_eq_some, Option.pure_def, Option.some.injEq]
  constructor
  · rintro ⟨_, rfl, _, mode, _, op, _, dest, _, src, rfl⟩
    exact ⟨mode, op, dest, src⟩
  · rintro ⟨mode, op, dest, src⟩
    exact ⟨_, rfl, _, mode, _, op, _, dest, _, src, rfl⟩

theorem returns : Returns Instruction.toJson Instruction.ofJson? Fits := by
  intro i k
  have document : i.toJson.written = object [("mode", (string i.mode.name).written),
      ("op", (string i.op.name).written), ("dest", (ofNat i.dest).written),
      ("src", (ofNat i.src).written)] := rfl
  rw [document, ofJson?_object, Mode.returns.eq_some, Operation.returns.eq_some,
    returns_ofNat.eq_some, returns_ofNat.eq_some]
  obtain ⟨_, _, _, _⟩ := i
  obtain ⟨_, _, _, _⟩ := k
  simp only [mk.injEq]
  constructor
  · rintro ⟨⟨-, rfl⟩, ⟨-, rfl⟩, ⟨dest, rfl⟩, src, rfl⟩
    exact ⟨⟨dest, src⟩, rfl, rfl, rfl, rfl⟩
  · rintro ⟨⟨dest, src⟩, rfl, rfl, rfl, rfl⟩
    exact ⟨⟨trivial, rfl⟩, ⟨trivial, rfl⟩, ⟨dest, rfl⟩, src, rfl⟩

end Instruction

namespace Program

structure Fits (p : Program) : Prop where
  id : IsWord p.id.val
  instructions : ∀ i ∈ p.instructions, i.Fits

instance (p : Program) : Decidable p.Fits :=
  decidable_of_iff (_ ∧ _) ⟨fun ⟨a, b⟩ => ⟨a, b⟩, fun ⟨a, b⟩ => ⟨a, b⟩⟩

theorem ofJson?_object (i j : Json) (p : Program) :
    Program.ofJson? (object [("id", i), ("instructions", j)]) = some p ↔
      ProgramId.ofJson? i = some p.id ∧ list? Instruction.ofJson? j = some p.instructions := by
  rw [Program.ofJson?, record?_object]
  case nodup => decide
  case all => rfl
  simp only [↓fields_eq_some, Option.pure_def, Option.some.injEq]
  constructor
  · rintro ⟨_, rfl, _, id, _, instructions, rfl⟩
    exact ⟨id, instructions⟩
  · rintro ⟨id, instructions⟩
    exact ⟨_, rfl, _, id, _, instructions, rfl⟩

theorem returns : Returns Program.toJson Program.ofJson? Fits := by
  intro p q
  have document : p.toJson.written = object [("id", p.id.toJson.written),
      ("instructions", (ofList Instruction.toJson p.instructions).written)] := rfl
  rw [document, ofJson?_object, ProgramId.returns.eq_some, Instruction.returns.list.eq_some]
  obtain ⟨_, _⟩ := p
  obtain ⟨_, _⟩ := q
  simp only [mk.injEq]
  constructor
  · rintro ⟨⟨id, rfl⟩, instructions, rfl⟩
    exact ⟨⟨id, instructions⟩, rfl, rfl⟩
  · rintro ⟨⟨id, instructions⟩, rfl, rfl⟩
    exact ⟨⟨id, rfl⟩, instructions, rfl⟩

end Program

namespace Outcomes

def Fits (outcomes : Outcomes) : Prop :=
  ∀ (task : String) (x : Float), outcomes[task]? = some x → x.isFinite = true

/-- Pairs of tasks and outcomes are added one after another. -/
theorem foldlM_written (pairs : List (String × Float)) (before after : Outcomes) :
    (pairs.map fun (task, x) => (task, (Json.real x).written)).foldlM
        (fun (outcomes : Outcomes) (task, j) => do pure (outcomes.insert task (← float? j)))
        before = some after ↔
      (∀ pair ∈ pairs, pair.2.isFinite = true) ∧
        pairs.foldl (fun outcomes (task, x) => outcomes.insert task x) before = after := by
  induction pairs generalizing before with
  | nil => simp
  | cons pair rest ih =>
    obtain ⟨task, x⟩ := pair
    simp only [Option.bind_eq_bind, Option.pure_def] at ih
    simp only [List.map_cons, List.foldlM_cons, Option.bind_eq_bind, Option.bind_eq_some_iff,
      Option.pure_def, Option.some.injEq, returns_real.eq_some, ih, List.forall_mem_cons,
      List.foldl_cons]
    constructor
    · rintro ⟨_, ⟨_, ⟨finite, rfl⟩, rfl⟩, rest, rfl⟩
      exact ⟨⟨finite, rest⟩, rfl⟩
    · rintro ⟨⟨finite, rest⟩, rfl⟩
      exact ⟨_, ⟨_, ⟨finite, rfl⟩, rfl⟩, rest, rfl⟩

theorem returns : Returns Outcomes.toJson Outcomes.ofJson? Fits := by
  intro outcomes others
  have document : outcomes.toJson.written =
      object (outcomes.toList.map fun (task, x) => (task, (Json.real x).written)) := by
    rw [Outcomes.toJson, written, writtenFields_eq, List.map_map]
    rfl
  have all_fit : (∀ pair ∈ outcomes.toList, pair.2.isFinite = true) ↔ Fits outcomes := by
    simp [Fits, Std.ExtTreeMap.mem_toList_iff_getElem?_eq_some]
  rw [document, Outcomes.ofJson?, foldlM_written, foldl_insert_toList, all_fit]

end Outcomes

namespace Team

structure Fits (id : TeamId) (t : Team) : Prop where
  id : IsWord id.val
  learners : ∀ l ∈ t.learners, IsWord l.val
  outcomes : t.outcomes.Fits
  generation : IsWord t.generation
  inLearners : ∀ l ∈ t.inLearners, IsWord l.val

/-- The team without a fitness that is not finite. -/
def stored (t : Team) : Team := { t with fitness := t.fitness.filter Float.isFinite }

theorem ofJson?_object (i l o f g r : Json) (id : TeamId) (t : Team) :
    Team.ofJson? (object [("id", i), ("learners", l), ("outcomes", o), ("fitness", f),
        ("generation", g), ("in_learners", r)]) = some (id, t) ↔
      TeamId.ofJson? i = some id ∧ list? LearnerId.ofJson? l = some t.learners ∧
        Outcomes.ofJson? o = some t.outcomes ∧ option? float? f = some t.fitness ∧
        natural? g = some t.generation ∧ list? LearnerId.ofJson? r = some t.inLearners := by
  rw [Team.ofJson?, record?_object]
  case nodup => decide
  case all => rfl
  simp only [↓fields_eq_some, Option.pure_def, Option.some.injEq, Prod.mk.injEq]
  constructor
  · rintro ⟨_, rfl, _, id, _, learners, _, outcomes, _, fitness, _, generation, _, inLearners, rfl,
      rfl⟩
    exact ⟨id, learners, outcomes, fitness, generation, inLearners⟩
  · rintro ⟨id, learners, outcomes, fitness, generation, inLearners⟩
    exact ⟨_, rfl, _, id, _, learners, _, outcomes, _, fitness, _, generation, _, inLearners, rfl,
      rfl⟩

/-- A fitness is always read back, but only as far as it is finite. -/
theorem fitness_stored (fitness stored : Option Float) :
    option? float? (ofOption Json.real fitness).written = some stored ↔
      fitness.filter Float.isFinite = stored := by
  cases fitness with
  | none => simp [ofOption, written, option?]
  | some x =>
    by_cases finite : x.isFinite = true <;>
      simp [ofOption, written, option?, float?, Option.filter, finite]

theorem stores : Stores (fun (id, t) => Team.toJson id t) Team.ofJson?
    (fun (id, t) => Team.Fits id t) fun (id, t) => (id, t.stored) := by
  rintro ⟨id, t⟩ ⟨id', t'⟩
  have document : (t.toJson id).written = object [("id", id.toJson.written),
      ("learners", (ofList LearnerId.toJson t.learners).written),
      ("outcomes", t.outcomes.toJson.written),
      ("fitness", (ofOption Json.real t.fitness).written),
      ("generation", (ofNat t.generation).written),
      ("in_learners", (ofList LearnerId.toJson t.inLearners).written)] := rfl
  simp only [document, ofJson?_object, TeamId.returns.eq_some, LearnerId.returns.list.eq_some,
    Outcomes.returns.eq_some, fitness_stored, returns_ofNat.eq_some]
  obtain ⟨_, _, _, _, _⟩ := t
  obtain ⟨_, _, _, _, _⟩ := t'
  simp only [stored, Prod.mk.injEq, mk.injEq]
  constructor
  · rintro ⟨⟨id, rfl⟩, ⟨learners, rfl⟩, ⟨outcomes, rfl⟩, rfl, ⟨generation, rfl⟩, inLearners, rfl⟩
    exact ⟨⟨id, learners, outcomes, generation, inLearners⟩, rfl, rfl, rfl, rfl, rfl, rfl⟩
  · rintro ⟨⟨id, learners, outcomes, generation, inLearners⟩, rfl, rfl, rfl, rfl, rfl, rfl⟩
    exact ⟨⟨id, rfl⟩, ⟨learners, rfl⟩, ⟨outcomes, rfl⟩, rfl, ⟨generation, rfl⟩, inLearners, rfl⟩

end Team

namespace Learner

structure Fits (id : LearnerId) (l : Learner) : Prop where
  id : IsWord id.val
  program : l.program.Fits
  action : l.action.Fits
  generation : IsWord l.generation
  inTeams : ∀ t ∈ l.inTeams, IsWord t.val

theorem ofJson?_object (i p a g r : Json) (id : LearnerId) (l : Learner) :
    Learner.ofJson? (object [("id", i), ("program", p), ("action", a), ("generation", g),
        ("in_teams", r)]) = some (id, l) ↔
      LearnerId.ofJson? i = some id ∧ Program.ofJson? p = some l.program ∧
        Action.ofJson? a = some l.action ∧ natural? g = some l.generation ∧
        list? TeamId.ofJson? r = some l.inTeams := by
  rw [Learner.ofJson?, record?_object]
  case nodup => decide
  case all => rfl
  simp only [↓fields_eq_some, Option.pure_def, Option.some.injEq, Prod.mk.injEq]
  constructor
  · rintro ⟨_, rfl, _, id, _, program, _, action, _, generation, _, inTeams, rfl, rfl⟩
    exact ⟨id, program, action, generation, inTeams⟩
  · rintro ⟨id, program, action, generation, inTeams⟩
    exact ⟨_, rfl, _, id, _, program, _, action, _, generation, _, inTeams, rfl, rfl⟩

theorem returns : Returns (fun (id, l) => Learner.toJson id l) Learner.ofJson?
    fun (id, l) => Learner.Fits id l := by
  rintro ⟨id, l⟩ ⟨id', l'⟩
  have document : (l.toJson id).written = object [("id", id.toJson.written),
      ("program", l.program.toJson.written), ("action", l.action.toJson.written),
      ("generation", (ofNat l.generation).written),
      ("in_teams", (ofList TeamId.toJson l.inTeams).written)] := rfl
  simp only [document, ofJson?_object, LearnerId.returns.eq_some, Program.returns.eq_some,
    Action.returns.eq_some, returns_ofNat.eq_some, TeamId.returns.list.eq_some]
  obtain ⟨_, _, _, _⟩ := l
  obtain ⟨_, _, _, _⟩ := l'
  simp only [Prod.mk.injEq, mk.injEq]
  constructor
  · rintro ⟨⟨id, rfl⟩, ⟨program, rfl⟩, ⟨action, rfl⟩, ⟨generation, rfl⟩, inTeams, rfl⟩
    exact ⟨⟨id, program, action, generation, inTeams⟩, rfl, rfl, rfl, rfl, rfl⟩
  · rintro ⟨⟨id, program, action, generation, inTeams⟩, rfl, rfl, rfl, rfl, rfl⟩
    exact ⟨⟨id, rfl⟩, ⟨program, rfl⟩, ⟨action, rfl⟩, ⟨generation, rfl⟩, inTeams, rfl⟩

end Learner

namespace Memory

structure Fits (m : Memory) : Prop where
  rows : IsWord m.rows
  cols : IsWord m.cols
  cells : ∀ x ∈ m.cells.toList, x.isFinite = true

/-- The memory with exactly as many cells as its shape has. -/
def stored (m : Memory) : Memory := ofCells m.rows m.cols m.cells

theorem ofJson?_object (i j k : Json) (m : Memory) :
    Memory.ofJson? (object [("rows", i), ("cols", j), ("cells", k)]) = some m ↔
      ∃ rows cols cells, natural? i = some rows ∧ natural? j = some cols ∧
        list? float? k = some cells ∧ ofCells rows cols cells.toArray = m := by
  rw [Memory.ofJson?, record?_object]
  case nodup => decide
  case all => rfl
  simp only [↓fields_eq_some, Option.pure_def, Option.some.injEq]
  constructor
  · rintro ⟨_, rfl, _, rows, _, cols, _, cells, rfl⟩
    exact ⟨_, _, _, rows, cols, cells, rfl⟩
  · rintro ⟨_, _, _, rows, cols, cells, rfl⟩
    exact ⟨_, rfl, _, rows, _, cols, _, cells, rfl⟩

theorem stores : Stores Memory.toJson Memory.ofJson? Fits Memory.stored := by
  intro m n
  have document : m.toJson.written = object [("rows", (ofNat m.rows).written),
      ("cols", (ofNat m.cols).written), ("cells", (ofList Json.real m.cells.toList).written)] :=
    rfl
  rw [document, ofJson?_object]
  simp only [returns_ofNat.eq_some, returns_real.list.eq_some]
  constructor
  · rintro ⟨_, _, _, ⟨rows, rfl⟩, ⟨cols, rfl⟩, ⟨cells, rfl⟩, rfl⟩
    exact ⟨⟨rows, cols, cells⟩, rfl⟩
  · rintro ⟨⟨rows, cols, cells⟩, rfl⟩
    exact ⟨_, _, _, ⟨rows, rfl⟩, ⟨cols, rfl⟩, ⟨cells, rfl⟩, rfl⟩

end Memory

end TangledGraph
