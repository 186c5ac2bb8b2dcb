import TangledGraph.Machine.Execution
import TangledGraph.Proofs.Yields

/-!
# Programs always end in a value

A memory is full if it has a cell for every row and column. No instruction
reaches outside of the registers, the input or a full memory, so every program
gives a value on every input and every register file, also on empty ones, and
leaves a full memory. A memory comes about with as many cells as a word holds of
their number, so it is full exactly if that number is a word; otherwise there is
a cell that is missing.
-/
namespace TangledGraph

open Draw

theorem cyclic_ok {xs : Array Float} (h : 0 < xs.size) (i : Nat) : ∃ x, cyclic xs i = .ok x := by
  have inside : i % xs.size < xs.size := Nat.mod_lt i h
  exact ⟨xs[i % xs.size], by simp [cyclic, inside]⟩

theorem wrap_le (n : Nat) : wrap n ≤ n := Nat.mod_le n _

theorem wrap_lt (n : Nat) : wrap n < Nat.pow 2 64 := Nat.mod_lt n (by decide)

theorem wrap_eq_iff {n : Nat} : wrap n = n ↔ n < Nat.pow 2 64 :=
  Nat.mod_eq_iff_lt (by decide)

namespace Memory

variable {m m' : Memory}

/-- There is a cell for every row and column. -/
def Full (m : Memory) : Prop := m.cells.size = m.rows * m.cols

/-- There are as many cells as a word holds of the number of rows and columns. -/
def Allocated (m : Memory) : Prop := m.cells.size = wrap (m.rows * m.cols)

/-- The places of all cells are words. -/
def Addressable (m : Memory) : Prop := m.rows * m.cols < Nat.pow 2 64

instance (m : Memory) : Decidable m.Addressable :=
  inferInstanceAs (Decidable (m.rows * m.cols < Nat.pow 2 64))

theorem allocated_zeros (rows cols : Nat) : (zeros rows cols).Allocated := by
  simp [Allocated, zeros]

theorem allocated_ofCells (rows cols : Nat) (cells : Array Float) :
    (ofCells rows cols cells).Allocated := by
  simp only [Allocated, ofCells, Array.take_eq_extract, Array.size_append, Array.size_extract,
    Array.size_replicate]
  omega

theorem Allocated.full_iff (allocated : m.Allocated) : m.Full ↔ m.Addressable := by
  rw [Full, allocated, wrap_eq_iff, Addressable]

/-- A memory is made anew from its cells. -/
theorem Allocated.ofCells_cells (allocated : m.Allocated) :
    ofCells m.rows m.cols m.cells = m := by
  obtain ⟨rows, cols, cells⟩ := m
  have size : cells.size = wrap (rows * cols) := allocated
  simp [ofCells, ← size]

/-- A place of the matrix is a place of its cells. -/
theorem place_lt {rows cols i j : Nat} (hi : i < rows) (hj : j < cols) :
    i * cols + j < rows * cols :=
  calc i * cols + j < i * cols + cols := Nat.add_lt_add_left hj _
    _ = (i + 1) * cols := (Nat.succ_mul i cols).symm
    _ ≤ rows * cols := Nat.mul_le_mul_right cols hi

theorem read_ok (full : m.Full) (row col : Nat) : ∃ x, m.read row col = .ok x := by
  unfold read
  by_cases none : m.rows = 0 ∨ m.cols = 0
  · exact ⟨0.0, if_pos none⟩
  · obtain ⟨rows, cols⟩ := not_or.1 none
    have inside : wrap (row % m.rows * m.cols + col % m.cols) < m.cells.size := by
      have hrow := Nat.mod_lt row (Nat.pos_of_ne_zero rows)
      have hcol := Nat.mod_lt col (Nat.pos_of_ne_zero cols)
      rw [full]
      exact Nat.lt_of_le_of_lt (wrap_le _) (place_lt hrow hcol)
    refine ⟨m.cells[wrap (row % m.rows * m.cols + col % m.cols)], ?_⟩
    rw [if_neg none, Array.getElem?_eq_getElem inside]
    rfl

/-- The first place without a cell is one of the matrix if there are more than words. -/
theorem Allocated.read_fails (allocated : m.Allocated) (many : ¬m.Addressable) :
    ∃ row col, row < Nat.pow 2 64 ∧ col < Nat.pow 2 64 ∧ m.read row col = .error .outOfRange := by
  have less : m.cells.size < Nat.pow 2 64 := allocated ▸ wrap_lt _
  have inside : m.cells.size < m.rows * m.cols := Nat.lt_of_lt_of_le less (Nat.not_lt.1 many)
  have cols : 0 < m.cols := Nat.pos_of_mul_pos_left (Nat.zero_lt_of_lt inside)
  have rows : 0 < m.rows := Nat.pos_of_mul_pos_right (Nat.zero_lt_of_lt inside)
  have row : m.cells.size / m.cols < m.rows := Nat.div_lt_of_lt_mul (Nat.mul_comm _ _ ▸ inside)
  have col : m.cells.size % m.cols < m.cols := Nat.mod_lt _ cols
  refine ⟨m.cells.size / m.cols, m.cells.size % m.cols,
    Nat.lt_of_le_of_lt (Nat.div_le_self _ _) less, Nat.lt_of_le_of_lt (Nat.mod_le _ _) less, ?_⟩
  have place : wrap (m.cells.size / m.cols * m.cols + m.cells.size % m.cols) = m.cells.size := by
    rw [Nat.div_add_mod', wrap_eq_iff.2 less]
  rw [read, if_neg (by omega), Nat.mod_eq_of_lt row, Nat.mod_eq_of_lt col, place,
    Array.getElem?_eq_none (Nat.le_refl _)]
  rfl

theorem size_foldl_set (xs : List Float) (start : Nat) (cells : Array Float) :
    (xs.foldl (fun (i, cells) x => (i + 1, cells.setIfInBounds i x)) (start, cells)).2.size =
      cells.size := by
  induction xs generalizing start cells with
  | nil => rfl
  | cons x xs ih => simpa using ih (start + 1) (cells.setIfInBounds start x)

/-- The rows, the columns and the number of cells. -/
def shape (m : Memory) : Nat × Nat × Nat := (m.rows, m.cols, m.cells.size)

theorem shape_eq_iff : m'.shape = m.shape ↔
    m'.rows = m.rows ∧ m'.cols = m.cols ∧ m'.cells.size = m.cells.size := by
  simp only [shape, Prod.mk.injEq]

theorem Full.of_shape (full : m.Full) (same : m'.shape = m.shape) : m'.Full := by
  obtain ⟨rows, cols, size⟩ := shape_eq_iff.1 same
  rw [Full, size, full, rows, cols]

theorem Allocated.of_shape (allocated : m.Allocated) (same : m'.shape = m.shape) :
    m'.Allocated := by
  obtain ⟨rows, cols, size⟩ := shape_eq_iff.1 same
  rw [Allocated, size, allocated, rows, cols]

theorem writeRow_shape {width : Nat} {registers : Array Float} {row : Nat}
    (run : writeRow width registers m row = .ok m') : m'.shape = m.shape := by
  unfold writeRow at run
  dsimp only at run
  split at run
  · exact absurd run throw_ne_ok
  · rw [pure_eq_ok, ← Array.foldl_toList] at run
    rw [← run, shape, size_foldl_set]
    rfl

theorem writeRows_shape {width : Nat} {registers : Array Float} {rows : List Nat}
    (run : rows.foldlM (writeRow width registers) m = .ok m') : m'.shape = m.shape :=
  foldlM_induction (fun now => now.shape = m.shape)
    (fun _ _ _ _ kept written => (writeRow_shape written).trans kept) rfl run

/-- A write changes cells only. -/
theorem write_shape (m : Memory) (registers : Array Float) :
    Yields (m.write registers) fun m' => m'.shape = m.shape := by
  unfold write
  dsimp only
  split
  · exact Yields.pure rfl
  · exact Yields.skip fun rows => Yields.lift fun m' => writeRows_shape

/-- A row of the matrix has room for as many registers as there are columns. -/
theorem writeRow_ok (full : m.Full) {width row : Nat} (fits : width ≤ m.cols)
    (inside : row < m.rows) (registers : Array Float) :
    ∃ m', writeRow width registers m row = .ok m' := by
  have room : ¬ m.cells.size < wrap (row * m.cols) + width := by
    rw [full, Nat.not_lt]
    calc wrap (row * m.cols) + width ≤ row * m.cols + m.cols := Nat.add_le_add (wrap_le _) fits
      _ = (row + 1) * m.cols := (Nat.succ_mul row m.cols).symm
      _ ≤ m.rows * m.cols := Nat.mul_le_mul_right m.cols inside
  simp only [writeRow, if_neg room]
  exact ⟨_, rfl⟩

theorem reachedRows_gives (m : Memory) (rows : List Nat) :
    Gives (m.reachedRows rows) fun reached => ∀ row ∈ reached, row ∈ rows := by
  induction rows with
  | nil => exact Gives.pure (by simp)
  | cons row rows ih =>
    refine (chance_gives _).bind fun reached _ => ih.bind fun others h => Gives.pure ?_
    intro k hk
    split at hk
    · exact (List.mem_cons.1 hk).elim (fun eq => eq ▸ List.mem_cons_self)
        fun hk => List.mem_cons_of_mem row (h k hk)
    · exact List.mem_cons_of_mem row (h k hk)

theorem writeRows_ok (full : m.Full) {width : Nat} (fits : width ≤ m.cols)
    {rows : List Nat} (inside : ∀ row ∈ rows, row < m.rows) (registers : Array Float) :
    ∃ m', rows.foldlM (writeRow width registers) m = .ok m' := by
  induction rows generalizing m with
  | nil => exact ⟨m, rfl⟩
  | cons row rows ih =>
    obtain ⟨first, others⟩ := List.forall_mem_cons.1 inside
    obtain ⟨next, run⟩ := writeRow_ok full fits first registers
    have same := writeRow_shape run
    obtain ⟨rows', cols', -⟩ := shape_eq_iff.1 same
    obtain ⟨m', rest⟩ := ih (full.of_shape same) (cols' ▸ fits) (rows' ▸ others)
    exact ⟨m', by rw [List.foldlM_cons, bind_eq_ok]; exact ⟨next, run, rest⟩⟩

theorem write_gives (full : m.Full) (registers : Array Float) :
    Gives (m.write registers) fun m' => m'.shape = m.shape := by
  unfold write
  dsimp only
  split
  · exact Gives.pure rfl
  · refine (m.reachedRows_gives _).bind fun rows reached => ?_
    have inside : ∀ row ∈ rows, row < m.rows := fun row h => List.mem_range.1 (reached row h)
    obtain ⟨m', run⟩ := writeRows_ok full (Nat.min_le_left _ _) inside registers
    exact Gives.lift run (writeRows_shape run)

end Memory

namespace Machine

/-- The memory, if there is one, is full. -/
def Full (m : Machine) : Prop := ∀ memory, m.memory = some memory → memory.Full

end Machine

namespace Instruction

theorem operand_ok {registers : Array Float} (some_register : 0 < registers.size)
    (input : Array Float) (i : Instruction) : ∃ y, i.operand input registers = .ok y := by
  unfold operand
  cases i.mode with
  | register => exact cyclic_ok some_register i.src
  | input =>
    by_cases empty : input.isEmpty
    · exact ⟨0.0, if_pos empty⟩
    · have : 0 < input.size := Array.size_pos_iff.2 (by simpa using empty)
      simpa only [if_neg empty] using cyclic_ok this i.src

theorem result_gives {m : Machine} (full : m.Full) (x y : Float) (i : Instruction) :
    Gives (i.result x y m) fun computed => ∀ memory, computed.2 = some memory → memory.Full := by
  cases op : i.op with
  | memoryRead =>
    cases memory : m.memory with
    | none => simpa only [result, op, memory] using Gives.pure (by simp)
    | some memory' =>
      obtain ⟨cell, run⟩ := Memory.read_ok (full _ memory) i.src i.dest
      simp only [result, op, memory]
      exact (Gives.lift (Q := fun _ => True) run trivial).bind fun _ _ =>
        Gives.pure (by simpa using full _ memory)
  | memoryWrite =>
    cases memory : m.memory with
    | none => simpa only [result, op, memory] using Gives.pure (by simp)
    | some memory' =>
      simp only [result, op, memory]
      exact (Memory.write_gives (full _ memory) m.registers).bind fun written same =>
        Gives.pure (by simpa using (full _ memory).of_shape same)
  | _ =>
    simp only [result, op]
    exact Gives.pure full

theorem step_gives {m : Machine} (full : m.Full) (some_register : 0 < m.registers.size)
    (input : Array Float) (i : Instruction) :
    Gives (step input m i) fun next => next.Full ∧ 0 < next.registers.size := by
  obtain ⟨y, operand⟩ := operand_ok some_register input i
  obtain ⟨x, register⟩ := cyclic_ok some_register i.dest
  refine (Gives.lift (Q := fun _ => True) operand trivial).bind fun _ _ => ?_
  refine (Gives.lift (Q := fun _ => True) register trivial).bind fun _ _ => ?_
  refine (result_gives full _ _ i).bind fun computed h => Gives.pure ⟨h, ?_⟩
  simpa using some_register

end Instruction

namespace Machine

/-- Instructions run to the end of every program. -/
theorem execute_gives {m : Machine} (full : m.Full) (instructions : List Instruction)
    (input : Array Float) :
    Gives (m.execute instructions input) fun computed => computed.2.Full := by
  unfold execute
  split
  · exact Gives.pure full
  case isFalse some_register =>
    have some_register : 0 < m.registers.size := Array.size_pos_iff.2 (by simpa using some_register)
    refine (Gives.foldlM (fun m : Machine => m.Full ∧ 0 < m.registers.size)
      (fun m i h => Instruction.step_gives h.1 h.2 input i) instructions
      ⟨full, some_register⟩).bind fun ended h => ?_
    obtain ⟨value, run⟩ := cyclic_ok h.2 0
    exact (Gives.lift (Q := fun _ => True) run trivial).bind fun _ _ => Gives.pure h.1

end Machine

end TangledGraph
