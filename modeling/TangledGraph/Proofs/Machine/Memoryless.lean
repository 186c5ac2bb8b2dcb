import TangledGraph.Machine.Program
import TangledGraph.Proofs.Machine.Totality

/-!
# Programs without a memory

Only a memory is written by chance. Without one a program draws nothing: what it
gives and what it leaves in its registers depends on the registers that it starts
from and on the input alone.
-/
namespace TangledGraph

namespace Instruction

theorem result_memoryless (i : Instruction) (x y : Float) (registers : Array Float) :
    ∃ value, i.result x y ⟨registers, none⟩ = pure (value, none) := by
  cases op : i.op <;> simp only [result, op] <;> exact ⟨_, rfl⟩

theorem step_memoryless {registers : Array Float} (some_register : 0 < registers.size)
    (input : Array Float) (i : Instruction) :
    ∃ file, step input ⟨registers, none⟩ i = pure ⟨file, none⟩ ∧ file.size = registers.size := by
  obtain ⟨y, operand⟩ := operand_ok some_register input i
  obtain ⟨x, register⟩ := cyclic_ok some_register i.dest
  obtain ⟨value, computed⟩ := i.result_memoryless x y registers
  refine ⟨registers.setIfInBounds (i.dest % registers.size) (clamp value), ?_, by simp⟩
  have drawless (a : Float) : (liftM (Except.ok a : Except Fault Float) : Draw Float) = pure a := rfl
  simp only [step, operand, register, drawless, pure_bind, computed]

end Instruction

namespace Machine

theorem run_memoryless {registers : Array Float} (some_register : 0 < registers.size)
    (input : Array Float) (instructions : List Instruction) :
    ∃ file, run ⟨registers, none⟩ input instructions = pure ⟨file, none⟩ ∧
      file.size = registers.size := by
  unfold run
  induction instructions generalizing registers with
  | nil => exact ⟨registers, rfl, rfl⟩
  | cons i instructions ih =>
    obtain ⟨file, first, size⟩ := Instruction.step_memoryless some_register input i
    obtain ⟨file', rest, size'⟩ := ih (size ▸ some_register)
    refine ⟨file', ?_, size'.trans size⟩
    rw [List.foldlM_cons, first, pure_bind]
    exact rest

theorem execute_memoryless (registers input : Array Float) (instructions : List Instruction) :
    ∃ value file, execute ⟨registers, none⟩ instructions input = pure (value, ⟨file, none⟩) ∧
      file.size = registers.size := by
  unfold execute
  split
  · exact ⟨0.0, registers, rfl, rfl⟩
  case isFalse full =>
    have some_register : 0 < registers.size := Array.size_pos_iff.2 (by simpa using full)
    obtain ⟨file, ran, size⟩ := run_memoryless some_register input instructions
    obtain ⟨value, first⟩ := cyclic_ok (size ▸ some_register) 0
    refine ⟨value, file, ?_, size⟩
    rw [ran, pure_bind, first]
    rfl

end Machine

namespace Program

/-- What a program gives on an input, and what it makes of the registers that it starts
from, if there is no memory. -/
def runOn (program : Program) (registers input : Array Float) :
    Except Fault (Float × Array Float) := do
  let ((value, machine), _) ←
    (Machine.execute ⟨registers, none⟩ program.instructions input).run (.ofScript [])
  pure (value, machine.registers)

/-- Every run of a program ends in the same way. -/
theorem runOn_ok (program : Program) (registers input : Array Float) :
    ∃ value file, program.runOn registers input = .ok (value, file) ∧
      file.size = registers.size ∧
      Machine.execute ⟨registers, none⟩ program.instructions input =
        pure (value, ⟨file, none⟩) := by
  obtain ⟨value, file, ran, size⟩ :=
    Machine.execute_memoryless registers input program.instructions
  refine ⟨value, file, ?_, size, ran⟩
  rw [runOn, ran]
  rfl

end Program

end TangledGraph
