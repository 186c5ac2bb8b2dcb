import TangledGraph.Proofs.Machine.Totality
import TangledGraph.Proofs.Random.Possibility

/-!
# Writes row by row

A write draws once for every row, and copies as many registers as fit to the rows
whose draws are below their probabilities. The cells stand in one array, row after
row, and no row reaches into another. So a memory keeps its shape through all calls,
and is the same memory again when it is taken up from its cells. All this is asked of
matrices whose places are words; of a greater one there are cells that no call finds.
-/
namespace TangledGraph

open Draw

namespace Stream

/-- The stream after a number of 64-bit words. -/
def skip (k : Nat) (s : Stream) : Stream := Nat.iterate (fun s => s.next64.2) k s

/-- The unit draw that comes after a number of others. -/
def unitAt (s : Stream) (k : Nat) : Float := unitOf (s.skip k).next64.1

theorem skip_succ (k : Nat) (s : Stream) : s.skip (k + 1) = s.next64.2.skip k := rfl

theorem unitAt_succ (s : Stream) (k : Nat) : s.unitAt (k + 1) = s.next64.2.unitAt k := rfl

end Stream

namespace Memory

variable {m m' : Memory} {registers : Array Float} {width : Nat}

/-- The cell of a row and a column, without going round. -/
def cell? (m : Memory) (row col : Nat) : Option Float := m.cells[row * m.cols + col]?

/-- Of the rows from one on, those are reached whose draws are below their
probabilities; every row takes one draw. -/
theorem reachedRows_run (m : Memory) (n start : Nat) (stream : Stream) :
    (m.reachedRows (List.range' start n)).run stream =
      .ok ((List.range' start n).filter fun row =>
        stream.unitAt (row - start) < m.writeProbability row, stream.skip n) := by
  induction n generalizing start stream with
  | zero => rfl
  | succ n ih =>
    have later : (List.range' (start + 1) n).filter (fun row =>
          stream.next64.2.unitAt (row - (start + 1)) < m.writeProbability row) =
        (List.range' (start + 1) n).filter fun row =>
          stream.unitAt (row - start) < m.writeProbability row := by
      refine List.filter_congr fun row hrow => ?_
      have after : start + 1 ≤ row := (List.mem_range'_1.1 hrow).1
      have place : row - start = row - (start + 1) + 1 := by omega
      rw [place, Stream.unitAt_succ]
    have first : stream.unitAt (start - start) = unitOf stream.next64.1 := by
      rw [Nat.sub_self]
      rfl
    have others := ih (start + 1) stream.next64.2
    rw [later] at others
    rw [List.range'_succ, reachedRows, run_bind_eq_ok]
    refine ⟨_, _, chance_run _ stream, run_bind_eq_ok.2 ⟨_, _, others, ?_⟩⟩
    rw [List.filter_cons, first, Stream.skip_succ]
    rfl

/-- There is a cell for every row and column, and its place is a word. -/
structure Whole (m : Memory) : Prop where
  full : m.Full
  addressable : m.Addressable

theorem Whole.of_shape (whole : m.Whole) (same : m'.shape = m.shape) : m'.Whole where
  full := whole.full.of_shape same
  addressable := by
    obtain ⟨rows, cols, -⟩ := shape_eq_iff.1 same
    rw [Addressable, rows, cols]
    exact whole.addressable

theorem Addressable.wrap_row (addressable : m.Addressable) {row : Nat} (inside : row < m.rows) :
    wrap (row * m.cols) = row * m.cols :=
  wrap_eq_iff.2 (Nat.lt_of_le_of_lt (Nat.mul_le_mul_right m.cols (Nat.le_of_lt inside)) addressable)

theorem Addressable.wrap_place (addressable : m.Addressable) {row col : Nat}
    (inside : row < m.rows) (inside' : col < m.cols) :
    wrap (row * m.cols + col) = row * m.cols + col :=
  wrap_eq_iff.2 (Nat.lt_trans (place_lt inside inside') addressable)

theorem getElem?_foldl_set (xs : List Float) (start : Nat) {cells : Array Float}
    (room : start + xs.length ≤ cells.size) (i : Nat) :
    (xs.foldl (fun (i, cells) x => (i + 1, cells.setIfInBounds i x)) (start, cells)).2[i]? =
      if start ≤ i ∧ i < start + xs.length then xs[i - start]? else cells[i]? := by
  induction xs generalizing start cells with
  | nil =>
    rw [if_neg (by simp)]
    rfl
  | cons x xs ih =>
    rw [List.length_cons] at room ⊢
    rw [List.foldl_cons, ih (start + 1) (by rw [Array.size_setIfInBounds]; omega)]
    obtain before | rfl | after := Nat.lt_trichotomy i start
    · rw [if_neg (by omega), if_neg (by omega), Array.getElem?_setIfInBounds_ne (by omega)]
    · rw [if_neg (by omega), if_pos (by omega), Nat.sub_self, List.getElem?_cons_zero,
        Array.getElem?_setIfInBounds_self_of_lt (by omega)]
    · have place : i - start = i - (start + 1) + 1 := by omega
      rw [place, List.getElem?_cons_succ, Array.getElem?_setIfInBounds_ne (by omega)]
      by_cases inside : i < start + (xs.length + 1)
      · rw [if_pos (by omega), if_pos (by omega)]
      · rw [if_neg (by omega), if_neg (by omega)]

/-- The start of a row holds cells of no other row. -/
theorem place_mem_iff {cols row k col : Nat} (fits : width ≤ cols) (inside : col < cols) :
    row * cols ≤ k * cols + col ∧ k * cols + col < row * cols + width ↔ k = row ∧ col < width := by
  obtain before | rfl | after := Nat.lt_trichotomy k row
  · have : (k + 1) * cols ≤ row * cols := Nat.mul_le_mul_right cols before
    rw [Nat.succ_mul] at this
    omega
  · omega
  · have : (row + 1) * cols ≤ k * cols := Nat.mul_le_mul_right cols after
    rw [Nat.succ_mul] at this
    omega

theorem cell?_writeRow (addressable : m.Addressable) (fits : width ≤ m.cols)
    (enough : width ≤ registers.size) {row : Nat} (there : row < m.rows)
    (run : writeRow width registers m row = .ok m') (k : Nat) {col : Nat} (inside : col < m.cols) :
    m'.cell? k col = if k = row ∧ col < width then registers[col]? else m.cell? k col := by
  simp only [writeRow, addressable.wrap_row there] at run
  split at run
  · exact absurd run throw_ne_ok
  case isFalse room =>
    rw [pure_eq_ok, ← Array.foldl_toList] at run
    have length : (registers.take width).toList.length = width := by
      simpa using enough
    subst run
    rw [cell?, getElem?_foldl_set _ _ (by rw [length]; omega), length]
    simp only [place_mem_iff fits inside]
    by_cases here : k = row ∧ col < width
    · rw [if_pos here, if_pos here, here.1, Nat.add_sub_cancel_left, Array.getElem?_toList,
        Array.take_eq_extract, Array.getElem?_extract, if_pos (by omega), Nat.zero_add]
    · rw [if_neg here, if_neg here]
      rfl

/-- Rows that are written one after another take the registers, and the others stay. -/
theorem writeRows_cell? (whole : m.Whole) (fits : width ≤ m.cols)
    (enough : width ≤ registers.size) {rows : List Nat} (inside : ∀ row ∈ rows, row < m.rows) :
    ∃ m', rows.foldlM (writeRow width registers) m = .ok m' ∧
      ∀ k col, col < m.cols → m'.cell? k col =
        if k ∈ rows ∧ col < width then registers[col]? else m.cell? k col := by
  induction rows generalizing m with
  | nil => exact ⟨m, rfl, fun k col _ => by simp⟩
  | cons row rows ih =>
    obtain ⟨first, others⟩ := List.forall_mem_cons.1 inside
    obtain ⟨next, run⟩ := writeRow_ok whole.full fits first registers
    have same := writeRow_shape run
    obtain ⟨rows', cols', -⟩ := shape_eq_iff.1 same
    obtain ⟨m', rest, cells⟩ := ih (whole.of_shape same) (cols' ▸ fits) (rows' ▸ others)
    refine ⟨m', ?_, fun k col h => ?_⟩
    · rw [List.foldlM_cons, bind_eq_ok]
      exact ⟨next, run, rest⟩
    · rw [cells k col (cols' ▸ h), cell?_writeRow whole.addressable fits enough first run k h]
      by_cases now : k = row <;> by_cases later : k ∈ rows <;> by_cases left : col < width <;>
        simp [now, later, left]

/-- What a write with some registers makes of a memory and a stream. -/
structure Written (registers : Array Float) (m : Memory) (stream : Stream) (m' : Memory)
    (rest : Stream) : Prop where
  full : m'.Full
  rows : m'.rows = m.rows
  cols : m'.cols = m.cols
  /-- A row whose draw is below its probability takes the registers that fit, and keeps
  its other cells. -/
  reached : ∀ row < m.rows, stream.unitAt row < m.writeProbability row → ∀ col < m.cols,
    m'.cell? row col =
      if col < min m.cols registers.size then registers[col]? else m.cell? row col
  /-- Any other row keeps all its cells. -/
  spared : ∀ row < m.rows, ¬stream.unitAt row < m.writeProbability row → ∀ col < m.cols,
    m'.cell? row col = m.cell? row col
  /-- One draw for every row, or none if there is nothing to copy. -/
  draws : rest = if 0 < min m.cols registers.size then stream.skip m.rows else stream

theorem write_written (whole : m.Whole) (registers : Array Float) (stream : Stream) :
    ∃ m' rest, (m.write registers).run stream = .ok (m', rest) ∧
      Written registers m stream m' rest := by
  unfold write
  dsimp only
  split
  case isTrue nothing =>
    refine ⟨m, stream, rfl, whole.full, rfl, rfl, fun row _ _ col h => ?_, fun _ _ _ _ _ => rfl,
      ?_⟩
    · rw [nothing, if_neg (Nat.not_lt_zero col)]
    · rw [nothing, if_neg (Nat.lt_irrefl 0)]
  case isFalse something =>
    have drawn := m.reachedRows_run m.rows 0 stream
    rw [← List.range_eq_range'] at drawn
    have inside : ∀ row ∈ (List.range m.rows).filter fun row =>
        stream.unitAt (row - 0) < m.writeProbability row, row < m.rows :=
      fun row h => List.mem_range.1 (List.mem_filter.1 h).1
    obtain ⟨m', run, cells⟩ :=
      writeRows_cell? whole (Nat.min_le_left _ _) (Nat.min_le_right m.cols registers.size) inside
    have same := writeRows_shape run
    obtain ⟨rows, cols, -⟩ := shape_eq_iff.1 same
    refine ⟨m', stream.skip m.rows, ?_, whole.full.of_shape same, rows, cols,
      fun row hrow below col h => ?_, fun row hrow above col h => ?_, ?_⟩
    · rw [run_bind_eq_ok]
      refine ⟨_, _, drawn, ?_⟩
      rw [run]
      rfl
    · rw [cells row col h]
      simp [hrow, below]
    · rw [cells row col h]
      simp [above]
    · rw [if_pos (Nat.pos_of_ne_zero something)]

/-- How a memory comes about. -/
inductive Origin
  | zeros (rows cols : Nat)
  | ofCells (rows cols : Nat) (cells : Array Float)

namespace Origin

def memory : Origin → Memory
  | zeros rows cols => .zeros rows cols
  | ofCells rows cols cells => .ofCells rows cols cells

theorem allocated (o : Origin) : o.memory.Allocated :=
  match o with
  | zeros rows cols => allocated_zeros rows cols
  | ofCells rows cols cells => allocated_ofCells rows cols cells

end Origin

inductive Call
  | write (registers : Array Float)
  | clear
  | read (row col : Nat)

/-- A call on a memory, with the value that it reads. -/
def Call.run (m : Memory) : Call → Draw (Option Float × Memory)
  | write registers => do return (none, ← m.write registers)
  | clear => pure (none, m.clear)
  | read row col => do return (some (← m.read row col), m)

/-- Calls one after another, with the values that they read. -/
def perform : List Call → Memory → Draw (List (Option Float) × Memory)
  | [], m => pure ([], m)
  | call :: calls, m => do
    let (value, m) ← call.run m
    let (values, m) ← perform calls m
    return (value :: values, m)

theorem shape_clear (m : Memory) : m.clear.shape = m.shape := by
  simp only [shape, clear, Array.size_map]

theorem Call.run_shape (call : Call) (m : Memory) :
    Yields (call.run m) fun made => made.2.shape = m.shape := by
  cases call with
  | write registers => exact (m.write_shape registers).bind fun m' same => Yields.pure same
  | clear => exact Yields.pure m.shape_clear
  | read row col => exact Yields.skip fun x => Yields.pure rfl

theorem perform_shape (calls : List Call) (m : Memory) :
    Yields (perform calls m) fun made => made.2.shape = m.shape := by
  induction calls generalizing m with
  | nil => exact Yields.pure rfl
  | cons call calls ih =>
    refine (call.run_shape m).bind fun first same => ?_
    exact (ih first.2).bind fun others same' => Yields.pure (same'.trans same)

/-- Every call can be made on a full memory. -/
theorem Call.run_gives (full : m.Full) (call : Call) :
    Gives (call.run m) fun made => made.2.shape = m.shape := by
  cases call with
  | write registers => exact (write_gives full registers).bind fun m' same => Gives.pure same
  | clear => exact Gives.pure m.shape_clear
  | read row col =>
    obtain ⟨x, run⟩ := read_ok full row col
    exact (Gives.lift (Q := fun _ => True) run trivial).bind fun _ _ => Gives.pure rfl

theorem perform_gives (full : m.Full) (calls : List Call) :
    Gives (perform calls m) fun made => made.2.shape = m.shape := by
  induction calls generalizing m with
  | nil => exact Gives.pure rfl
  | cons call calls ih =>
    refine (call.run_gives full).bind fun first same => ?_
    exact (ih (full.of_shape same)).bind fun others same' => Gives.pure (same'.trans same)

/-- What is read is the cell that the row and the column go round to. -/
theorem read_cell? (addressable : m.Addressable) (some_row : m.rows ≠ 0) (some_col : m.cols ≠ 0)
    {row col : Nat} {x : Float} (run : m.read row col = .ok x) :
    m.cell? (row % m.rows) (col % m.cols) = some x := by
  have row_lt : row % m.rows < m.rows := Nat.mod_lt row (Nat.pos_of_ne_zero some_row)
  have col_lt : col % m.cols < m.cols := Nat.mod_lt col (Nat.pos_of_ne_zero some_col)
  rw [read, if_neg (by simp [some_row, some_col]), addressable.wrap_place row_lt col_lt] at run
  unfold cell?
  split at run
  case h_1 y found => exact found.trans (congrArg some (pure_eq_ok.1 run))
  case h_2 => exact absurd run throw_ne_ok

/-- However a memory comes about and whatever calls are made on it, none of them fails
if the places of all its cells are words, and there is a cell for every row and column.
Every next write goes by rows, and every next read gives a cell of the matrix. Of a
greater matrix some cell cannot be read. In any case a memory keeps the cells that it
came with, as many as a word holds of their number, and is made anew from them. -/
theorem calls_keep_rows (origin : Origin) :
    (origin.memory.Addressable → ∀ calls stream, ∃ values now rest,
      (perform calls origin.memory).run stream = .ok ((values, now), rest) ∧
        now.cells.size = now.rows * now.cols ∧
        now.rows = origin.memory.rows ∧ now.cols = origin.memory.cols ∧
        (∀ registers, ∃ next later, (now.write registers).run rest = .ok (next, later) ∧
          Written registers now rest next later) ∧
        (∀ row col, ∃ x, now.read row col = .ok x ∧
          (now.rows ≠ 0 → now.cols ≠ 0 → now.cell? (row % now.rows) (col % now.cols) = some x))) ∧
    (¬origin.memory.Addressable → ∃ row col, row < Nat.pow 2 64 ∧ col < Nat.pow 2 64 ∧
      origin.memory.read row col = .error .outOfRange) ∧
    ∀ calls stream values now rest,
      (perform calls origin.memory).run stream = .ok ((values, now), rest) →
        now.cells.size = wrap (now.rows * now.cols) ∧ now.rows = origin.memory.rows ∧
          now.cols = origin.memory.cols ∧ ofCells now.rows now.cols now.cells = now := by
  refine ⟨fun addressable calls stream => ?_, origin.allocated.read_fails,
    fun calls stream values now rest run => ?_⟩
  · have whole : origin.memory.Whole := ⟨origin.allocated.full_iff.2 addressable, addressable⟩
    obtain ⟨⟨values, now⟩, rest, run, same⟩ := perform_gives whole.full calls stream
    obtain ⟨rows, cols, -⟩ := shape_eq_iff.1 same
    have whole' : now.Whole := whole.of_shape same
    refine ⟨values, now, rest, run, whole'.full, rows, cols,
      fun registers => write_written whole' registers rest, fun row col => ?_⟩
    obtain ⟨x, read⟩ := read_ok whole'.full row col
    exact ⟨x, read, fun some_row some_col =>
      read_cell? whole'.addressable some_row some_col read⟩
  · have same := perform_shape calls origin.memory stream (values, now) rest run
    obtain ⟨rows, cols, -⟩ := shape_eq_iff.1 same
    have allocated : now.Allocated := origin.allocated.of_shape same
    exact ⟨allocated, rows, cols, allocated.ofCells_cells⟩

/-- The number of cells of this matrix wraps around to zero, and its first row is missing. -/
theorem rows_missing : (zeros (Nat.pow 2 63) 2).cells.size = 0 ∧
    (zeros (Nat.pow 2 63) 2).read 0 0 = .error .outOfRange := by
  constructor
  · simp [zeros, wrap]
  · rfl

end Memory

end TangledGraph
