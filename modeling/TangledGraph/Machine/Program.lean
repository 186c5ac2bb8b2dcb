import TangledGraph.Identity
import TangledGraph.Machine.Execution

/-!
# Programs

A program is a list of instructions under the identity of that version of it.
Variation repeats rounds of deletion, insertion, change and exchange until the
instructions differ from what they were, and then takes a new identity.
-/
namespace TangledGraph

structure Program where
  id : ProgramId
  instructions : List Instruction
  deriving DecidableEq, Repr

namespace Program

/-- Programs are the same if their instructions are. -/
def same (p q : Program) : Bool := p.instructions == q.instructions

/-- A program under a fresh identity. -/
def create (c : Counters) (instructions : List Instruction) : Program × Counters :=
  let (id, c) := c.newProgram
  (⟨id, instructions⟩, c)

def duplicate (p : Program) (c : Counters) : Program × Counters := create c p.instructions

end Program

namespace ProgramSettings

/-- A given number of instructions. -/
def randomInstructions (s : ProgramSettings) : Nat → Draw (List Instruction)
  | 0 => pure []
  | n + 1 => do
    let first ← s.randomInstruction
    return first :: (← s.randomInstructions n)

/-- A program of between one and the greatest initial number of instructions. -/
def randomProgram (s : ProgramSettings) (c : Counters) : Draw (Program × Counters) := do
  let length ← Draw.between 1 s.initMaxProgramSize
  return Program.create c (← s.randomInstructions length)

end ProgramSettings

namespace MutationSettings

variable (m : MutationSettings) (s : ProgramSettings)

/-- Deletes an instruction, but never the last one. -/
def deleteInstruction (code : List Instruction) : Draw (List Instruction) := do
  if ← Draw.chanceWhen (1 < code.length) m.pInstDelete then
    return code.eraseIdx (← Draw.below64 code.length)
  else pure code

/-- Inserts an instruction unless the program has its greatest size. -/
def insertInstruction (code : List Instruction) : Draw (List Instruction) := do
  if ← Draw.chanceWhen (code.length < s.maxProgramSize) m.pInstAdd then
    let place ← Draw.between 0 code.length
    return code.insertIdx place (← s.randomInstruction)
  else pure code

/-- Changes a field of an instruction. -/
def changeInstruction (code : List Instruction) : Draw (List Instruction) := do
  if ← Draw.chanceWhen (!code.isEmpty) m.pInstMutate then
    let place ← Draw.below64 code.length
    match code[place]? with
    | some i => return code.set place (← s.flipField i)
    | none => throw .outOfRange
  else pure code

/-- Exchanges the instructions at two places. -/
def swapAt (code : List Instruction) (a b : Nat) : List Instruction :=
  match code[a]?, code[b]? with
  | some x, some y => (code.set a y).set b x
  | _, _ => code

/-- Exchanges two instructions, which may be one. -/
def exchangeInstructions (code : List Instruction) : Draw (List Instruction) := do
  if ← Draw.chanceWhen (1 < code.length) m.pInstSwap then
    let a ← Draw.below64 code.length
    let b ← Draw.below64 code.length
    pure (swapAt code a b)
  else pure code

/-- One round of variation on the instructions. -/
def varyInstructions (code : List Instruction) : Draw (List Instruction) := do
  let code ← m.deleteInstruction code
  let code ← m.insertInstruction s code
  let code ← m.changeInstruction s code
  m.exchangeInstructions code

/-- A round that ends the variation if the instructions differ from `start`. -/
def varyRound (start code : List Instruction) : Draw (List Instruction ⊕ List Instruction) := do
  let code ← m.varyInstructions s code
  pure (if code = start then .inl code else .inr code)

/-- Varies a program until its instructions change. -/
def varyProgram (p : Program) (c : Counters) : Draw (Program × Counters) := do
  let code ← Draw.iterate (m.varyRound s p.instructions) Draw.roundLimit p.instructions
  pure (Program.create c code)

end MutationSettings

end TangledGraph
