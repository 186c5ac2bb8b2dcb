import TangledGraph.Proofs.Machine.Totality

/-!
# Registers and memory stay finite

What an instruction computes may be infinite or no number at all, and so may the
input. The registers take only clamped results and a memory only registers, so
both stay finite, through every program and through any number of executions one
after another, whatever they draw. An execution leaves a register alone unless
one of its instructions names it.
-/
namespace TangledGraph

open Draw

open Float.Model in
theorem isFinite_clamp (x : Float) : (clamp x).isFinite = true := by
  unfold clamp
  split
  · decide
  split
  · decide
  split
  · decide
  case isFalse number positive negative =>
    have number : ¬ UnpackedFloat.isNaN x.toModel.unpack = true := number
    have positive : ¬ UnpackedFloat.beq x.toModel.unpack (.infinity .positive) = true := positive
    have negative : ¬ UnpackedFloat.beq x.toModel.unpack (.infinity .negative) = true := negative
    have finite : UnpackedFloat.isFinite x.toModel.unpack = true := by
      cases unpacked : x.toModel.unpack with
      | notANumber => exact absurd (unpacked ▸ rfl) number
      | infinity s =>
        cases s with
        | positive => exact absurd (by rw [unpacked]; rfl) positive
        | negative => exact absurd (by rw [unpacked]; rfl) negative
      | zero s => rfl
      | finite s m e pos => rfl
    exact finite

/-- Every entry is a finite float. -/
def AllFinite (xs : Array Float) : Prop := ∀ x ∈ xs, x.isFinite = true

instance (xs : Array Float) : Decidable (AllFinite xs) :=
  inferInstanceAs (Decidable (∀ x ∈ xs, x.isFinite = true))

theorem AllFinite.setIfInBounds {xs : Array Float} (h : AllFinite xs) (i : Nat) {x : Float}
    (finite : x.isFinite = true) : AllFinite (xs.setIfInBounds i x) := by
  intro y hy
  obtain old | rfl := Array.mem_or_eq_of_mem_setIfInBounds hy
  · exact h y old
  · exact finite

theorem cyclic_eq_ok {xs : Array Float} {i : Nat} {x : Float} :
    cyclic xs i = .ok x ↔ xs[i % xs.size]? = some x := by
  unfold cyclic
  split <;> simp_all

namespace Memory

/-- A full memory whose cells are finite. -/
structure Finite (m : Memory) : Prop where
  full : m.Full
  cells : AllFinite m.cells

theorem foldl_set_allFinite {xs : List Float} (values : ∀ x ∈ xs, x.isFinite = true)
    (start : Nat) {cells : Array Float} (h : AllFinite cells) :
    AllFinite (xs.foldl (fun (i, cells) x => (i + 1, cells.setIfInBounds i x)) (start, cells)).2 := by
  induction xs generalizing start cells with
  | nil => exact h
  | cons x xs ih =>
    obtain ⟨first, others⟩ := List.forall_mem_cons.1 values
    exact ih others (start + 1) (h.setIfInBounds start first)

/-- A row takes registers in the place of cells. -/
theorem writeRow_finite {m m' : Memory} (h : m.Finite) {registers : Array Float}
    (values : AllFinite registers) {width row : Nat}
    (run : writeRow width registers m row = .ok m') : m'.Finite := by
  have same := writeRow_shape run
  unfold writeRow at run
  dsimp only at run
  split at run
  · exact absurd run throw_ne_ok
  · rw [pure_eq_ok, ← Array.foldl_toList] at run
    have taken : ∀ x ∈ (registers.take width).toList, x.isFinite = true := by
      intro x hx
      rw [Array.mem_toList_iff, Array.take_eq_extract, Array.mem_extract_iff_getElem] at hx
      obtain ⟨k, _, rfl⟩ := hx
      exact values _ (Array.getElem_mem _)
    exact ⟨h.full.of_shape same, run ▸ foldl_set_allFinite taken _ h.cells⟩

theorem write_yields {m : Memory} (h : m.Finite) {registers : Array Float}
    (values : AllFinite registers) :
    Yields (m.write registers) Finite := by
  unfold write
  dsimp only
  split
  · exact Yields.pure h
  · refine Yields.skip fun rows => Yields.lift fun m' run => ?_
    exact foldlM_induction Finite
      (fun row _ now next finite written => writeRow_finite finite values written) h run

end Memory

namespace Machine

/-- A machine whose registers are finite, and so is its memory if there is one. -/
structure Finite (m : Machine) : Prop where
  registers : AllFinite m.registers
  memory : ∀ memory, m.memory = some memory → memory.Finite

theorem Finite.full {m : Machine} (h : m.Finite) : m.Full :=
  fun memory some_memory => (h.memory memory some_memory).full

/-- What running instructions makes of a finite machine: another one with as many
registers and the same shape of memory, and with every register as before that
no instruction names. -/
structure Ran (instructions : List Instruction) (before after : Machine) : Prop where
  finite : after.Finite
  size : after.registers.size = before.registers.size
  shape : after.memory.map Memory.shape = before.memory.map Memory.shape
  others : ∀ i, (∀ instruction ∈ instructions, instruction.dest % before.registers.size ≠ i) →
    after.registers[i]? = before.registers[i]?

theorem Ran.refl {m : Machine} (h : m.Finite) : Ran [] m m := ⟨h, rfl, rfl, fun _ _ => rfl⟩

theorem Ran.trans {first second : List Instruction} {m m' m'' : Machine} (h : Ran first m m')
    (h' : Ran second m' m'') : Ran (first ++ second) m m'' where
  finite := h'.finite
  size := h'.size.trans h.size
  shape := h'.shape.trans h.shape
  others i spared := by
    obtain ⟨left, right⟩ := List.forall_mem_append.1 spared
    exact (h'.others i (h.size ▸ right)).trans (h.others i left)

end Machine

namespace Instruction

open Machine

theorem result_yields {m : Machine} (h : m.Finite) (x y : Float) (i : Instruction) :
    Yields (i.result x y m) fun computed =>
      (∀ memory, computed.2 = some memory → memory.Finite) ∧
        computed.2.map Memory.shape = m.memory.map Memory.shape := by
  cases op : i.op with
  | memoryRead =>
    cases memory : m.memory with
    | none => simpa only [result, op, memory] using Yields.pure (by simp)
    | some memory' =>
      simp only [result, op, memory]
      exact Yields.skip fun _ => Yields.pure (by simpa using h.memory _ memory)
  | memoryWrite =>
    cases memory : m.memory with
    | none => simpa only [result, op, memory] using Yields.pure (by simp)
    | some memory' =>
      simp only [result, op, memory]
      have written := (Memory.write_yields (h.memory _ memory) h.registers).and
        (memory'.write_shape m.registers)
      exact written.bind fun written kept => Yields.pure (by simpa using kept)
  | _ =>
    simp only [result, op]
    exact Yields.pure ⟨h.memory, rfl⟩

/-- Whatever an instruction computes, its register takes a finite value. -/
theorem step_yields {m : Machine} (h : m.Finite) (input : Array Float) (i : Instruction) :
    Yields (step input m i) (Ran [i] m) := by
  refine Yields.skip fun y => Yields.skip fun x => ?_
  refine (result_yields h x y i).bind fun computed kept => Yields.pure ?_
  exact {
    finite := ⟨h.registers.setIfInBounds _ (isFinite_clamp computed.1), kept.1⟩
    size := Array.size_setIfInBounds
    shape := kept.2
    others := fun k spared =>
      Array.getElem?_setIfInBounds_ne (spared i List.mem_cons_self) }

end Instruction

namespace Machine

theorem run_yields {m : Machine} (h : m.Finite) (input : Array Float)
    (instructions : List Instruction) : Yields (m.run input instructions) (Ran instructions m) := by
  induction instructions generalizing m with
  | nil => exact Yields.pure (Ran.refl h)
  | cons i rest ih =>
    refine (Instruction.step_yields h input i).bind fun next stepped => ?_
    exact (ih stepped.finite).mono fun after ran => stepped.trans ran

/-- What an execution makes of a finite machine, and the value it gives: the first
register, or zero without registers. -/
structure Executed (instructions : List Instruction) (before : Machine) (value : Float)
    (after : Machine) : Prop extends Ran instructions before after where
  value : value = after.registers[0]?.getD 0.0

/-- Every program runs to its end, and gives the first register. -/
theorem execute_executed {m : Machine} (h : m.Finite) (instructions : List Instruction)
    (input : Array Float) :
    Gives (m.execute instructions input) fun result =>
      Executed instructions m result.1 result.2 := by
  refine (execute_gives h.full instructions input).and ?_ |>.mono fun _ => And.right
  unfold execute
  split
  case isTrue empty =>
    refine Yields.pure ⟨⟨h, rfl, rfl, fun _ _ => rfl⟩, ?_⟩
    rw [Array.isEmpty_iff.1 empty]
    rfl
  case isFalse =>
    refine (run_yields h input instructions).bind fun after ran => Yields.lift_bind fun x first => ?_
    rw [cyclic_eq_ok, Nat.zero_mod] at first
    exact Yields.pure ⟨ran, by rw [first]; rfl⟩

/-- An execution to come: a program, its input and the words that it draws. -/
structure Task where
  instructions : List Instruction
  input : Array Float
  stream : Stream

/-- Executions one after another over the same registers and memory, with the value
and the machine after each. -/
def executeAll (m : Machine) : List Task → Except Fault (List (Float × Machine))
  | [] => pure []
  | task :: tasks => do
    let (result, _) ← (m.execute task.instructions task.input).run task.stream
    return result :: (← result.2.executeAll tasks)

/-- Executions one after another all end, each in a finite machine. What one of them
makes of the machine before it, and what it makes of the first one together with
those before it, is told by their instructions. -/
theorem executeAll_executed {m : Machine} (h : m.Finite) (tasks : List Task) :
    ∃ results, m.executeAll tasks = .ok results ∧ results.length = tasks.length ∧
      ∀ k task before value after, tasks[k]? = some task →
        (m :: results.map Prod.snd)[k]? = some before → results[k]? = some (value, after) →
        Executed task.instructions before value after ∧
          Executed ((tasks.take (k + 1)).flatMap Task.instructions) m value after := by
  induction tasks generalizing m with
  | nil => exact ⟨[], rfl, rfl, by simp⟩
  | cons task tasks ih =>
    obtain ⟨⟨value, after⟩, rest, first, executed⟩ :=
      execute_executed h task.instructions task.input task.stream
    obtain ⟨results, others, length, each⟩ := ih executed.finite
    refine ⟨(value, after) :: results, ?_, by rw [List.length_cons, length, List.length_cons], ?_⟩
    · rw [executeAll, first]
      simp only [bind, Except.bind, others]
      rfl
    · intro k
      cases k with
      | zero =>
        simp only [List.getElem?_cons_zero, Option.some.injEq, Prod.mk.injEq]
        rintro task' before value' after' rfl rfl ⟨rfl, rfl⟩
        exact ⟨executed, by simpa using executed⟩
      | succ k =>
        simp only [List.getElem?_cons_succ, List.map_cons, List.take_succ_cons, List.flatMap_cons]
        intro task' before value' after' now earlier later
        obtain ⟨step, whole⟩ := each k task' before value' after' now earlier later
        exact ⟨step, executed.toRan.trans whole.toRan, whole.value⟩

/-- Infinities in the input, indices beyond the registers, and a memory. -/
theorem executeAll_executed_infinity :
    ∃ results, executeAll ⟨#[1.0, -2.0], some (.ofCells 1 2 #[0.5])⟩
      [⟨[⟨.input, .exp, 7, 3⟩, ⟨.register, .memoryWrite, 2, 0⟩], #[infinity], .ofSeed 1⟩,
        ⟨[⟨.input, .sub, 3, 0⟩], #[-infinity, 0.0 / 0.0], .ofScript [5]⟩] = .ok results ∧
      results.length = 2 ∧ ∀ value after, results[1]? = some (value, after) →
        Executed [⟨.input, .exp, 7, 3⟩, ⟨.register, .memoryWrite, 2, 0⟩, ⟨.input, .sub, 3, 0⟩]
          ⟨#[1.0, -2.0], some (.ofCells 1 2 #[0.5])⟩ value after := by
  have finite : Finite ⟨#[1.0, -2.0], some (.ofCells 1 2 #[0.5])⟩ := by
    refine ⟨by decide +kernel, fun memory eq => ?_⟩
    cases eq
    have allocated := Memory.allocated_ofCells 1 2 #[0.5]
    exact ⟨allocated.full_iff.2 (by decide +kernel), by decide +kernel⟩
  obtain ⟨results, run, length, each⟩ := executeAll_executed finite
    [⟨[⟨.input, .exp, 7, 3⟩, ⟨.register, .memoryWrite, 2, 0⟩], #[infinity], .ofSeed 1⟩,
      ⟨[⟨.input, .sub, 3, 0⟩], #[-infinity, 0.0 / 0.0], .ofScript [5]⟩]
  refine ⟨results, run, length, fun value after last => ?_⟩
  obtain ⟨before, first⟩ : ∃ before, results[0]? = some before :=
    ⟨_, List.getElem?_eq_getElem (by rw [length]; decide)⟩
  refine (each 1 _ before.2 value after rfl ?_ last).2
  rw [List.getElem?_cons_succ, List.getElem?_map, first]
  rfl

end Machine

end TangledGraph
