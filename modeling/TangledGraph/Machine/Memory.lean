import TangledGraph.Number
import TangledGraph.Random.Draw

/-!
# Shared memory

A matrix of floats that programs read cell by cell and write row by row. A
write reaches each row by chance, most likely the one in the middle. Numbers
and places of cells are 64-bit words, which wrap around.
-/
namespace TangledGraph

/-- What a 64-bit word holds of a number. -/
def wrap (n : Nat) : Nat := n % Nat.pow 2 64

/-- The cells of the matrix row by row. -/
structure Memory where
  rows : Nat
  cols : Nat
  cells : Array Float
  deriving Repr

namespace Memory

def zeros (rows cols : Nat) : Memory := ⟨rows, cols, Array.replicate (wrap (rows * cols)) 0.0⟩

/-- A matrix from the first of the given cells; missing cells are zero. -/
def ofCells (rows cols : Nat) (cells : Array Float) : Memory :=
  let count := wrap (rows * cols)
  ⟨rows, cols, cells.take count ++ Array.replicate (count - cells.size) 0.0⟩

/-- The cell of a row and a column, both counted round; an empty matrix reads
as zero. -/
def read (m : Memory) (row col : Nat) : Except Fault Float :=
  if m.rows = 0 ∨ m.cols = 0 then pure 0.0
  else match m.cells[wrap (row % m.rows * m.cols + col % m.cols)]? with
    | some x => pure x
    | none => throw .outOfRange

/-- How likely a write reaches a row. -/
def writeProbability (m : Memory) (row : Nat) : Float :=
  let center := Float.ofNat (m.rows / 2)
  let distance := 0.01 * (Float.ofNat row - center).abs
  greater (0.25 - distance * distance) 0.0

/-- Of the given rows those that a write reaches, with one draw each. -/
def reachedRows (m : Memory) : List Nat → Draw (List Nat)
  | [] => pure []
  | row :: rest => do
    let reached ← Draw.chance (m.writeProbability row)
    let others ← m.reachedRows rest
    pure (if reached then row :: others else others)

/-- Copies the first `width` registers to the start of a row. -/
def writeRow (width : Nat) (registers : Array Float) (m : Memory) (row : Nat) :
    Except Fault Memory :=
  let start := wrap (row * m.cols)
  if m.cells.size < start + width then throw .outOfRange
  else pure { m with
    cells := (registers.take width).foldl (fun (i, cells) x => (i + 1, cells.setIfInBounds i x))
      (start, m.cells) |>.2 }

/-- Copies the registers to every row that is reached, as far as they fit. -/
def write (m : Memory) (registers : Array Float) : Draw Memory := do
  let width := min m.cols registers.size
  if width = 0 then pure m
  else
    let rows ← m.reachedRows (List.range m.rows)
    (rows.foldlM (writeRow width registers) m : Except Fault Memory)

def clear (m : Memory) : Memory := { m with cells := m.cells.map fun _ => 0.0 }

end Memory

end TangledGraph
