import TangledGraph.Machine.Program
import TangledGraph.Proofs.Random.Possibility

/-!
# Programs can change

With valid settings some words make a program. Some words change a program that has
an instruction: those that turn the mode of the first one and do nothing else. A
round that does not end the variation leaves the instructions as they were, so these
words may come next at the beginning of every round.
-/
namespace TangledGraph

open Draw

namespace ProgramSettings

variable {s : Settings} (valid : s.Valid)
include valid

theorem randomInstruction_allows : Allows s.program.randomInstruction fun _ => True := by
  have coin : Allows coin fun _ => True := ⟨[0], _, trivial, fun _ _ => rfl⟩
  have some_operation : s.program.instructionSet.operations ≠ [] := by
    cases s.program.instructionSet <;> decide
  have operation : Allows s.program.randomOperation fun _ => True :=
    (choose_allows some_operation).bind fun _ _ => Allows.pure trivial
  have some_source : 0 < s.program.sourceRange :=
    Nat.lt_of_lt_of_le valid.some_input (Nat.le_max_left _ _)
  refine coin.bind fun _ _ => operation.bind fun _ _ => ?_
  refine (below64_allows valid.some_register).bind fun _ _ => ?_
  exact (below64_allows some_source).bind fun _ _ => Allows.pure trivial

theorem randomInstructions_allows (n : Nat) :
    Allows (s.program.randomInstructions n) fun _ => True := by
  induction n with
  | zero => exact Allows.pure trivial
  | succ n ih =>
    exact (randomInstruction_allows valid).bind fun _ _ => ih.bind fun _ _ => Allows.pure trivial

theorem randomProgram_allows (c : Counters) :
    Allows (s.program.randomProgram c) fun made => ∃ code, made = Program.create c code := by
  refine Allows.bind (Q := fun _ => True) ?_ fun length _ => ?_
  · rw [between, if_neg (Nat.not_lt.2 valid.some_instruction), map_eq_pure_bind]
    exact (below64_allows (Nat.succ_pos _)).bind fun _ _ => Allows.pure trivial
  · exact (randomInstructions_allows valid length).bind fun code _ => Allows.pure ⟨code, rfl⟩

end ProgramSettings

theorem Mode.other_ne (m : Mode) : m.other ≠ m := by
  cases m <;> decide

namespace MutationSettings

variable {m : MutationSettings} {s : ProgramSettings} {code : List Instruction}

/-- A round does not end the variation, and the next one begins. -/
def Returns (m : MutationSettings) (s : ProgramSettings) (start code next : List Instruction) :
    Prop :=
  ∃ stream rest, (m.varyRound s start code).run stream = .ok (.inl next, rest)

theorem eq_of_returns {start now : List Instruction}
    (returns : Relation.ReflTransGen (m.Returns s start) start now) : now = start := by
  obtain rfl | ⟨before, -, stream, rest, run⟩ := returns.cases_tail
  · rfl
  · have round : Yields (m.varyRound s start before) (Sum.elim (· = start) fun _ => True) := by
      refine Yields.skip fun code => ?_
      split
      case isTrue same => exact Yields.pure same
      case isFalse => exact Yields.pure trivial
    exact round stream _ rest run

section Changes

variable (probabilities : ∀ pair ∈ m.probabilities, isProbability pair.2 = true)
include probabilities

theorem deleteInstruction_allows : Allows (m.deleteInstruction code) (· = code) := by
  refine (chanceWhen_allows_false (probabilities ("p_inst_delete", m.pInstDelete)
    (by simp [MutationSettings.probabilities])) _).bind fun chosen none => ?_
  subst none
  exact Allows.pure rfl

theorem insertInstruction_allows : Allows (m.insertInstruction s code) (· = code) := by
  refine (chanceWhen_allows_false (probabilities ("p_inst_add", m.pInstAdd)
    (by simp [MutationSettings.probabilities])) _).bind fun chosen none => ?_
  subst none
  exact Allows.pure rfl

theorem exchangeInstructions_allows : Allows (m.exchangeInstructions code) (· = code) := by
  refine (chanceWhen_allows_false (probabilities ("p_inst_swap", m.pInstSwap)
    (by simp [MutationSettings.probabilities])) _).bind fun chosen none => ?_
  subst none
  exact Allows.pure rfl

/-- The mode of the first instruction may be the only thing that changes. -/
theorem changeInstruction_allows (positive : (m.pInstMutate == 0.0) = false)
    (some_code : code ≠ []) : Allows (m.changeInstruction s code) (· ≠ code) := by
  obtain ⟨i, rest, rfl⟩ := List.exists_cons_of_ne_nil some_code
  refine (chance_allows_true (probabilities ("p_inst_mutate", m.pInstMutate)
    (by simp [MutationSettings.probabilities])) positive).bind fun chosen eq => ?_
  subst eq
  refine (below64_allows (Nat.succ_pos _)).bind fun place eq => ?_
  subst eq
  refine Allows.bind (Q := (· = { i with mode := i.mode.other })) ?_ fun i' eq => ?_
  · refine (below32_allows (by decide)).bind fun field eq => ?_
    subst eq
    exact Allows.pure rfl
  · subst eq
    exact Allows.pure fun same => Mode.other_ne i.mode
      (congrArg Instruction.mode (List.cons.inj same).1)

theorem varyInstructions_allows (positive : (m.pInstMutate == 0.0) = false)
    (some_code : code ≠ []) : Allows (m.varyInstructions s code) (· ≠ code) := by
  refine (deleteInstruction_allows probabilities).bind fun code₁ eq => ?_
  subst eq
  refine (insertInstruction_allows probabilities).bind fun code₂ eq => ?_
  subst eq
  refine (changeInstruction_allows probabilities positive some_code).bind fun code₃ apart => ?_
  exact (exchangeInstructions_allows probabilities).mono fun code₄ eq => eq ▸ apart

theorem varyRound_allows (positive : (m.pInstMutate == 0.0) = false) (some_code : code ≠ []) :
    Allows (m.varyRound s code code) fun outcome => ∃ varied, outcome = .inr varied ∧ True := by
  refine (varyInstructions_allows probabilities positive some_code).bind fun varied apart => ?_
  rw [if_neg apart]
  exact Allows.pure ⟨varied, rfl, trivial⟩

/-- The variation of a program with an instruction may end. -/
theorem varyProgram_allows (positive : (m.pInstMutate == 0.0) = false) {p : Program}
    (some_code : p.instructions ≠ []) (c : Counters) :
    Allows (m.varyProgram s p c) fun _ => True := by
  have some_round : roundLimit = roundLimit - 1 + 1 := by decide
  have ends : Allows (Draw.iterate (m.varyRound s p.instructions) Draw.roundLimit
      p.instructions) fun _ => True := by
    rw [some_round]
    exact Allows.iterate (varyRound_allows probabilities positive some_code) _
  exact ends.bind fun code _ => Allows.pure trivial

/-- Whenever a round begins, the variation may end with it. -/
theorem varyRounds_allow (positive : (m.pInstMutate == 0.0) = false) {start now : List Instruction}
    (some_code : start ≠ []) (returns : Relation.ReflTransGen (m.Returns s start) start now)
    (fuel : Nat) : Allows (Draw.iterate (m.varyRound s start) (fuel + 1) now) fun _ => True := by
  obtain rfl := eq_of_returns returns
  exact Allows.iterate (varyRound_allows probabilities positive some_code) fuel

end Changes

end MutationSettings

end TangledGraph
