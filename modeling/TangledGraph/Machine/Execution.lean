import TangledGraph.Machine.Instruction
import TangledGraph.Machine.Memory

/-!
# Execution

Instructions run in order over a file of registers and, if there is one, a
memory. Every result is clamped before it is stored, so registers stay finite.
-/
namespace TangledGraph

/-- What instructions change. -/
structure Machine where
  registers : Array Float
  memory : Option Memory
  deriving Repr

/-- The entry at an index counted round. -/
def cyclic (xs : Array Float) (i : Nat) : Except Fault Float :=
  match xs[i % xs.size]? with
  | some x => pure x
  | none => throw .outOfRange

namespace Instruction

/-- The operand of an instruction; without inputs an input reads as zero. -/
def operand (i : Instruction) (input registers : Array Float) : Except Fault Float :=
  match i.mode with
  | .register => cyclic registers i.src
  | .input => if input.isEmpty then pure 0.0 else cyclic input i.src

/-- What an instruction computes from its register `x` and its operand `y`,
with the memory after it. -/
def result (i : Instruction) (x y : Float) (m : Machine) : Draw (Float × Option Memory) :=
  match i.op, m.memory with
  | .add, memory => pure (x + y, memory)
  | .sub, memory => pure (x - y, memory)
  | .double, memory => pure (x * 2.0, memory)
  | .half, memory => pure (x / 2.0, memory)
  | .conditionalNegate, memory => pure (if x < y then -x else x, memory)
  | .cos, memory => pure (y.cos, memory)
  | .log, memory => pure (if 0.0 < y then y.log else x, memory)
  | .exp, memory => pure (y.exp, memory)
  | .memoryRead, some memory => do return (← memory.read i.src i.dest, some memory)
  | .memoryWrite, some memory => do return (x, some (← memory.write m.registers))
  | .memoryRead, none | .memoryWrite, none => pure (x, none)

def step (input : Array Float) (m : Machine) (i : Instruction) : Draw Machine := do
  let y ← i.operand input m.registers
  let dest := i.dest % m.registers.size
  let x ← cyclic m.registers i.dest
  let (value, memory) ← i.result x y m
  pure { registers := m.registers.setIfInBounds dest (clamp value), memory }

end Instruction

namespace Machine

def run (m : Machine) (input : Array Float) (instructions : List Instruction) : Draw Machine :=
  instructions.foldlM (Instruction.step input) m

/-- Runs instructions and gives the first register; without registers nothing
runs and the result is zero. -/
def execute (m : Machine) (instructions : List Instruction) (input : Array Float) :
    Draw (Float × Machine) := do
  if m.registers.isEmpty then pure (0.0, m)
  else
    let m ← m.run input instructions
    return (← cyclic m.registers 0, m)

end Machine

end TangledGraph
