import TangledGraph.Proofs.Number.Rounding
import TangledGraph.Settings.Validation

/-!
# Valid settings

What settings that pass validation promise to the draws that they bound: there
is a team to make, a code to take, a register and an input to name, and every
range of sizes has an element.
-/
namespace TangledGraph

@[simp] theorem rejectIf_eq_ok {broken : Bool} {problem : SettingsProblem} :
    rejectIf broken problem = .ok () ↔ broken = false := by
  cases broken <;> simp [rejectIf, pure, Except.pure, throw, throwThe, MonadExceptOf.throw]

/-- A chain of checks passes exactly if both of its links do. -/
theorem checks_eq_ok {first : Checked} {second : Unit → Checked} :
    first >>= second = .ok () ↔ first = .ok () ∧ second () = .ok () := by
  cases first with
  | error problem => simp [bind, Except.bind]
  | ok passed => simp [bind, Except.bind]

theorem checkProbability_eq_ok {part name : String} {value : Float} :
    checkProbability part name value = .ok () ↔ isProbability value = true := by
  rw [checkProbability, rejectIf_eq_ok, Bool.not_eq_false']

theorem checkProbabilities_eq_ok {part : String} {pairs : List (String × Float)} :
    (pairs.forM fun (name, value) => checkProbability part name value) = .ok () ↔
      ∀ pair ∈ pairs, isProbability pair.2 = true := by
  induction pairs with
  | nil => simp [pure, Except.pure]
  | cons pair pairs ih =>
    have chain : ((pair :: pairs).forM fun (name, value) => checkProbability part name value) =
        (checkProbability part pair.1 pair.2 >>= fun _ =>
          pairs.forM fun (name, value) => checkProbability part name value) := rfl
    rw [chain, checks_eq_ok, checkProbability_eq_ok, ih, List.forall_mem_cons]

section Probabilities

open Float.Model Float.Model.UnpackedFloat Rounding

/-- A probability is zero, or has an exponent that keeps it below one. -/
theorem unpack_of_isProbability {x : Float} (h : isProbability x = true) :
    (∃ s, x.toModel.unpack = .zero s) ∨
      ∃ m e, IsPositive x m e ∧ m < 2 ^ 53 ∧ -1074 ≤ e ∧ e ≤ -53 := by
  obtain ⟨least, most⟩ : (0.0 : Float) ≤ x ∧ x < (1.0 : Float) := by
    simpa [isProbability] using h
  have least : UnpackedFloat.le (.zero .positive) x.toModel.unpack = true :=
    of_decide_eq_true least
  have most : UnpackedFloat.lt x.toModel.unpack (.finite .positive (2 ^ 52) (-52) (by decide)) =
      true := of_decide_eq_true most
  cases unpacked : x.toModel.unpack with
  | notANumber =>
    rw [unpacked] at most
    cases most
  | infinity s =>
    rw [unpacked] at least most
    cases s
    · cases least
    · cases most
  | zero s => exact .inl ⟨s, rfl⟩
  | finite s m e pos =>
    obtain ⟨small, low, normal⟩ := unpack_bounds unpacked
    rw [unpacked] at least most
    cases s
    · cases least
    · refine .inr ⟨m, e, ⟨pos, unpacked⟩, small, low, ?_⟩
      simp only [UnpackedFloat.lt, UnpackedFloat.compare, beq_iff_eq, Option.some.injEq,
        Ordering.then_eq_lt] at most
      rw [Int.compare_eq_lt, Int.compare_eq_eq, Nat.compare_eq_lt] at most
      omega

theorem isFinite_of_isProbability {x : Float} (h : isProbability x = true) :
    x.isFinite = true := by
  have finite : UnpackedFloat.isFinite x.toModel.unpack = true := by
    obtain ⟨s, zero⟩ | ⟨m, e, ⟨pos, unpacked⟩, -⟩ := unpack_of_isProbability h
    · rw [zero]
      rfl
    · rw [unpacked]
      rfl
  exact finite

end Probabilities

namespace Settings

structure Valid (s : Settings) : Prop where
  some_team : 0 < s.trainer.teamPopSize
  some_code : 0 < s.trainer.actions.size
  gap : isProbability s.trainer.gap = true
  some_register : 0 < s.program.registerCount
  some_input : 0 < s.program.inputSize
  some_instruction : 1 ≤ s.program.initMaxProgramSize
  probabilities : ∀ pair ∈ s.mutation.probabilities, isProbability pair.2 = true
  rampant : 0 < s.mutation.rampantGen → s.mutation.rampantMin ≤ s.mutation.rampantMax
  two_learners : 2 ≤ s.mutation.initMaxTeamSize

theorem valid_of_validate {s : Settings} (h : s.validate = .ok ()) : s.Valid := by
  simp only [validate, TrainerSettings.validate, ProgramSettings.validate,
    MutationSettings.validate, checkProbability_eq_ok, checkProbabilities_eq_ok, checks_eq_ok,
    rejectIf_eq_ok] at h
  obtain ⟨⟨teams, codes, -, gap⟩, ⟨registers, inputs, sizes, -⟩,
    ⟨probabilities, -, -, rampant, initial, -⟩, -⟩ := h
  exact {
    some_team := by simpa [Nat.pos_iff_ne_zero] using teams
    some_code := by simpa [Nat.pos_iff_ne_zero] using codes
    gap := gap
    some_register := by simpa [Nat.pos_iff_ne_zero] using registers
    some_input := by simpa [Nat.pos_iff_ne_zero] using inputs
    some_instruction := by
      simp only [Bool.or_eq_false_iff, beq_eq_false_iff_ne] at sizes
      exact Nat.one_le_iff_ne_zero.2 sizes.1
    probabilities := probabilities
    rampant := by
      intro positive
      simp only [positive, decide_true, Bool.true_and, Bool.or_eq_false_iff,
        decide_eq_false_iff_not, Nat.not_lt] at rampant
      exact rampant.2
    two_learners := Nat.not_lt.1 (of_decide_eq_false initial) }

/-- New programs have no more instructions than variation leaves them. -/
theorem sizes_of_validate {s : Settings} (h : s.validate = .ok ()) :
    s.program.initMaxProgramSize ≤ s.program.maxProgramSize := by
  simp only [validate, ProgramSettings.validate, checks_eq_ok, rejectIf_eq_ok] at h
  obtain ⟨-, ⟨-, -, sizes, -⟩, -⟩ := h
  simpa using (Bool.or_eq_false_iff.1 sizes).2

/-- Learners are to change in one way or the other, and programs are. -/
structure Varies (s : Settings) : Prop where
  learners : (s.mutation.pProgramMutate == 0.0) = false ∨ (s.mutation.pActionMutate == 0.0) = false
  instructions : (s.mutation.pInstMutate == 0.0) = false

theorem varies_of_validate {s : Settings} (h : s.validate = .ok ()) : s.Varies := by
  simp only [validate, MutationSettings.validate, checks_eq_ok, rejectIf_eq_ok] at h
  obtain ⟨-, -, ⟨-, learners, instructions, -⟩, -⟩ := h
  exact ⟨Bool.and_eq_false_iff.1 learners, instructions⟩

end Settings

end TangledGraph
