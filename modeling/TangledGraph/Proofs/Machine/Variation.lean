import TangledGraph.Machine.Program
import TangledGraph.Proofs.Random.Safety
import TangledGraph.Proofs.Settings.Valid

/-!
# Programs can be drawn and varied

With valid settings every draw of an instruction has something to choose from,
and every place that variation draws is a place of the program. So programs are
made and varied without a fault, but a variation may go on for ever.
-/
namespace TangledGraph

open Draw

variable {stalls : Stream → Prop} {s : Settings}

section

variable (stuck : ∀ s : Stream, s.Stuck → stalls s)
include stuck

namespace ProgramSettings

theorem randomOperation_safe (s : ProgramSettings) :
    Safe stalls s.randomOperation fun _ => True :=
  (choose_safe stuck _).bind fun _ _ => Safe.pure trivial

end ProgramSettings

variable (valid : s.Valid)
include valid

namespace ProgramSettings

theorem source_safe : Safe stalls (below64 s.program.sourceRange) fun _ => True := by
  have some_source : 0 < s.program.sourceRange :=
    Nat.lt_of_lt_of_le valid.some_input (Nat.le_max_left _ _)
  exact (below64_safe stuck some_source).mono fun _ _ => trivial

theorem register_safe : Safe stalls (below64 s.program.registerCount) fun _ => True :=
  (below64_safe stuck valid.some_register).mono fun _ _ => trivial

theorem randomInstruction_safe : Safe stalls s.program.randomInstruction fun _ => True :=
  coin_safe.skip fun _ => (randomOperation_safe stuck _).skip fun _ =>
    (register_safe stuck valid).skip fun _ => (source_safe stuck valid).skip fun _ =>
      Safe.pure trivial

theorem randomInstructions_safe (n : Nat) :
    Safe stalls (s.program.randomInstructions n) fun _ => True := by
  induction n with
  | zero => exact Safe.pure trivial
  | succ n ih =>
    exact (randomInstruction_safe stuck valid).skip fun _ => ih.skip fun _ => Safe.pure trivial

/-- A program takes the next identity. -/
theorem randomProgram_safe (c : Counters) :
    Safe stalls (s.program.randomProgram c) fun made => ∃ code, made = Program.create c code :=
  (between_safe stuck valid.some_instruction).bind fun length _ =>
    (randomInstructions_safe stuck valid length).bind fun code _ => Safe.pure ⟨code, rfl⟩

theorem flipField_safe (i : Instruction) : Safe stalls (s.program.flipField i) fun _ => True := by
  refine (below32_safe stuck (by decide)).bind fun field _ => ?_
  split
  · exact Safe.pure trivial
  · exact (randomOperation_safe stuck _).skip fun _ => Safe.pure trivial
  · exact (register_safe stuck valid).skip fun _ => Safe.pure trivial
  · exact (source_safe stuck valid).skip fun _ => Safe.pure trivial

end ProgramSettings

namespace MutationSettings

omit valid in
theorem deleteInstruction_safe (m : MutationSettings) (code : List Instruction) :
    Safe stalls (m.deleteInstruction code) fun _ => True := by
  refine (chanceWhen_safe _ _).bind fun chosen h => ?_
  split
  case isTrue deletes =>
    have some_place : 0 < code.length := Nat.lt_of_succ_lt (of_decide_eq_true (h deletes))
    exact (below64_safe stuck some_place).bind fun _ _ => Safe.pure trivial
  case isFalse => exact Safe.pure trivial

theorem insertInstruction_safe (m : MutationSettings) (code : List Instruction) :
    Safe stalls (m.insertInstruction s.program code) fun _ => True := by
  refine (chanceWhen_safe _ _).bind fun chosen _ => ?_
  split
  · exact (between_safe stuck (Nat.zero_le _)).bind fun _ _ =>
      (ProgramSettings.randomInstruction_safe stuck valid).skip fun _ => Safe.pure trivial
  · exact Safe.pure trivial

/-- The place that is drawn is a place of the program. -/
theorem changeInstruction_safe (m : MutationSettings) (code : List Instruction) :
    Safe stalls (m.changeInstruction s.program code) fun _ => True := by
  refine (chanceWhen_safe _ _).bind fun chosen h => ?_
  split
  case isFalse => exact Safe.pure trivial
  case isTrue changes =>
    have some_place : 0 < code.length := by simpa [List.length_pos_iff] using h changes
    refine (below64_safe stuck some_place).bind fun place there => ?_
    rw [List.getElem?_eq_getElem there]
    exact (ProgramSettings.flipField_safe stuck valid _).skip fun _ => Safe.pure trivial

omit valid in
theorem exchangeInstructions_safe (m : MutationSettings) (code : List Instruction) :
    Safe stalls (m.exchangeInstructions code) fun _ => True := by
  refine (chanceWhen_safe _ _).bind fun chosen h => ?_
  split
  case isTrue exchanges =>
    have some_place : 0 < code.length := Nat.lt_of_succ_lt (of_decide_eq_true (h exchanges))
    exact (below64_safe stuck some_place).bind fun _ _ =>
      (below64_safe stuck some_place).bind fun _ _ => Safe.pure trivial
  case isFalse => exact Safe.pure trivial

theorem varyInstructions_safe (m : MutationSettings) (code : List Instruction) :
    Safe stalls (m.varyInstructions s.program code) fun _ => True :=
  (deleteInstruction_safe stuck m code).skip fun code =>
    (insertInstruction_safe stuck valid m code).skip fun code =>
      (changeInstruction_safe stuck valid m code).skip fun code =>
        exchangeInstructions_safe stuck m code

end MutationSettings

end

/-- A variation may go round for ever, and ends in a program of the next identity. -/
theorem MutationSettings.varyProgram_faultless (valid : s.Valid) (m : MutationSettings)
    (program : Program) (c : Counters) :
    Faultless (m.varyProgram s.program program c) fun made =>
      ∃ code, made = Program.create c code := by
  have varied : Faultless (Draw.iterate (m.varyRound s.program program.instructions)
      Draw.roundLimit program.instructions) fun _ => True := by
    refine Faultless.iterate (fun _ => True) (fun code _ => ?_) _ trivial
    refine (varyInstructions_safe stalls_anywhere valid m code).skip fun code' => ?_
    split
    all_goals exact Safe.pure trivial
  exact varied.bind fun code _ => Safe.pure ⟨code, rfl⟩

end TangledGraph
