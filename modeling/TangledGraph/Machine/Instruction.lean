import TangledGraph.Settings.Basic

/-!
# Instructions

An instruction combines a register with an operand and writes the register.
Indices of any size are allowed; the machine counts them round.
-/
namespace TangledGraph

/-- Where the operand of an instruction comes from. -/
inductive Mode
  | register
  | input
  deriving DecidableEq, Repr

namespace Mode

def other : Mode → Mode
  | register => input
  | input => register

end Mode

inductive Operation
  | add
  | sub
  | double
  | half
  /-- Negates the register if it is below the operand. -/
  | conditionalNegate
  | cos
  /-- The logarithm of a positive operand; leaves the register alone otherwise. -/
  | log
  | exp
  | memoryRead
  | memoryWrite
  deriving DecidableEq, Repr

structure Instruction where
  mode : Mode
  op : Operation
  dest : Nat
  src : Nat
  deriving DecidableEq, Repr

namespace InstructionSet

def operations : InstructionSet → List Operation
  | minimal => [.add, .sub, .double, .half, .conditionalNegate]
  | full => [.add, .sub, .double, .half, .conditionalNegate, .cos, .log, .exp]
  | memory =>
    [.add, .sub, .double, .half, .conditionalNegate, .cos, .log, .exp, .memoryRead, .memoryWrite]

def usesMemory (s : InstructionSet) : Bool := s == memory

end InstructionSet

namespace ProgramSettings

/-- One more than the greatest source index that is drawn. -/
def sourceRange (s : ProgramSettings) : Nat := max s.inputSize s.registerCount

/-- An operation of the set. -/
def randomOperation (s : ProgramSettings) : Draw Operation := do
  return (← Draw.choose s.instructionSet.operations).getD .add

def randomInstruction (s : ProgramSettings) : Draw Instruction := do
  let mode := if ← Draw.coin then Mode.register else .input
  let op ← s.randomOperation
  let dest ← Draw.below64 s.registerCount
  let src ← Draw.below64 s.sourceRange
  pure { mode, op, dest, src }

/-- Draws one field of an instruction anew; the mode always changes. -/
def flipField (s : ProgramSettings) (i : Instruction) : Draw Instruction := do
  match ← Draw.below32 4 with
  | 0 => pure { i with mode := i.mode.other }
  | 1 => return { i with op := ← s.randomOperation }
  | 2 => return { i with dest := ← Draw.below64 s.registerCount }
  | _ => return { i with src := ← Draw.below64 s.sourceRange }

end ProgramSettings

end TangledGraph
