import Mathlib.Data.List.InsertIdx
import TangledGraph.Machine.Program
import TangledGraph.Proofs.Random.Range

/-!
# Programs stay within bounds

Instructions are drawn from the set, with indices within their ranges, and a flip
draws a field again from its range. A round of variation deletes no last
instruction and inserts none beyond the greatest size, so whatever the draws are
and in whatever order their effects meet, a program keeps at least one instruction
and no more than it may have, all of them within bounds.
-/
namespace TangledGraph

open Draw

namespace ProgramSettings

variable {s : ProgramSettings}

/-- An instruction of the set whose indices are within their ranges. -/
structure Within (s : ProgramSettings) (i : Instruction) : Prop where
  op : i.op ∈ s.instructionSet.operations
  dest : i.dest < s.registerCount
  src : i.src < s.sourceRange

theorem add_mem_operations (set : InstructionSet) : Operation.add ∈ set.operations := by
  cases set <;> decide

theorem randomOperation_yields (s : ProgramSettings) :
    Yields s.randomOperation (· ∈ s.instructionSet.operations) := by
  refine (choose_yields _).bind fun chosen listed => Yields.pure ?_
  cases chosen with
  | none => exact add_mem_operations _
  | some op => exact listed op rfl

theorem randomInstruction_yields (s : ProgramSettings) : Yields s.randomInstruction s.Within :=
  Yields.skip fun _ => (randomOperation_yields s).bind fun _ op => (below64_yields _).bind
    fun _ dest => (below64_yields _).bind fun _ src => Yields.pure ⟨op, dest, src⟩

theorem flipField_yields {i : Instruction} (h : s.Within i) :
    Yields (s.flipField i) s.Within := by
  refine Yields.skip fun field => ?_
  split
  · exact Yields.pure ⟨h.op, h.dest, h.src⟩
  · exact (randomOperation_yields s).bind fun _ op => Yields.pure ⟨op, h.dest, h.src⟩
  · exact (below64_yields _).bind fun _ dest => Yields.pure ⟨h.op, dest, h.src⟩
  · exact (below64_yields _).bind fun _ src => Yields.pure ⟨h.op, h.dest, src⟩

end ProgramSettings

/-- There are instructions, no more than a number of them, and each is as it has to
be. -/
structure Bounded (P : Instruction → Prop) (most : Nat) (code : List Instruction) : Prop where
  least : 0 < code.length
  most : code.length ≤ most
  each : ∀ i ∈ code, P i

theorem randomInstructions_yields {s : ProgramSettings} {P : Instruction → Prop}
    (drawn : Yields s.randomInstruction P) (n : Nat) :
    Yields (s.randomInstructions n) fun code => code.length = n ∧ ∀ i ∈ code, P i := by
  induction n with
  | zero => exact Yields.pure (by simp)
  | succ n ih =>
    refine drawn.bind fun i hi => ih.bind fun code ⟨length, each⟩ => Yields.pure ?_
    exact ⟨congrArg (· + 1) length, List.forall_mem_cons.2 ⟨hi, each⟩⟩

theorem randomProgram_yields {s : ProgramSettings} {P : Instruction → Prop}
    (drawn : Yields s.randomInstruction P) (c : Counters) :
    Yields (s.randomProgram c) fun made => Bounded P s.initMaxProgramSize made.1.instructions := by
  refine (between_yields 1 _).bind fun n ⟨least, most⟩ =>
    (randomInstructions_yields drawn n).bind fun code ⟨length, each⟩ => Yields.pure ?_
  subst length
  exact ⟨least, most, each⟩

namespace MutationSettings

theorem chanceWhen_yields (condition : Bool) (p : Float) :
    Yields (chanceWhen condition p) fun chosen => chosen = true → condition = true := by
  cases condition with
  | true => exact (Yields.trivial _).mono fun _ _ _ => rfl
  | false => exact Yields.pure nofun

theorem length_swapAt (code : List Instruction) (a b : Nat) :
    (swapAt code a b).length = code.length := by
  unfold swapAt
  split <;> simp

theorem mem_of_mem_swapAt {code : List Instruction} {a b : Nat} {i : Instruction}
    (h : i ∈ swapAt code a b) : i ∈ code := by
  unfold swapAt at h
  split at h
  case h_1 x y hx hy =>
    obtain h | rfl := List.mem_or_eq_of_mem_set h
    · obtain h | rfl := List.mem_or_eq_of_mem_set h
      · exact h
      · exact List.mem_of_getElem? hy
    · exact List.mem_of_getElem? hx
  case h_2 => exact h

variable {m : MutationSettings} {s : ProgramSettings} {P : Instruction → Prop} {most : Nat}
  {code : List Instruction}

theorem deleteInstruction_bounded (h : Bounded P most code) :
    Yields (m.deleteInstruction code) (Bounded P most) := by
  refine (chanceWhen_yields _ _).bind fun chosen more => ?_
  split
  case isFalse => exact Yields.pure h
  case isTrue deletes =>
    refine Yields.skip fun place => Yields.pure ?_
    have two : 1 < code.length := of_decide_eq_true (more deletes)
    have length : code.length - 1 ≤ (code.eraseIdx place).length ∧
        (code.eraseIdx place).length ≤ code.length := by
      rw [List.length_eraseIdx]
      split <;> omega
    exact ⟨by omega, Nat.le_trans length.2 h.most, fun i hi => h.each i (List.mem_of_mem_eraseIdx hi)⟩

/-- An instruction is inserted only if there is room. -/
theorem insertInstruction_bounded (drawn : Yields s.randomInstruction P)
    (room : s.maxProgramSize ≤ most) (h : Bounded P most code) :
    Yields (m.insertInstruction s code) (Bounded P most) := by
  refine (chanceWhen_yields _ _).bind fun chosen fits => ?_
  split
  case isFalse => exact Yields.pure h
  case isTrue inserts =>
    refine Yields.skip fun place => drawn.bind fun new hnew => Yields.pure ?_
    have fits : code.length < s.maxProgramSize := of_decide_eq_true (fits inserts)
    have length : code.length ≤ (code.insertIdx place new).length ∧
        (code.insertIdx place new).length ≤ code.length + 1 := by
      rw [List.length_insertIdx]
      split <;> omega
    refine ⟨Nat.lt_of_lt_of_le h.least length.1, by omega, fun i hi => ?_⟩
    obtain rfl | hi := List.eq_or_mem_of_mem_insertIdx hi
    · exact hnew
    · exact h.each i hi

theorem changeInstruction_bounded (flipped : ∀ i, P i → Yields (s.flipField i) P)
    (h : Bounded P most code) : Yields (m.changeInstruction s code) (Bounded P most) := by
  refine Yields.skip fun chosen => ?_
  split
  case isFalse => exact Yields.pure h
  case isTrue =>
    refine Yields.skip fun place => ?_
    split
    case h_2 => exact Yields.throw
    case h_1 i there =>
      refine (flipped i (h.each i (List.mem_of_getElem? there))).bind fun new hnew =>
        Yields.pure ?_
      refine ⟨by simpa using h.least, by simpa using h.most, fun j hj => ?_⟩
      obtain hj | rfl := List.mem_or_eq_of_mem_set hj
      · exact h.each j hj
      · exact hnew

theorem exchangeInstructions_bounded (h : Bounded P most code) :
    Yields (m.exchangeInstructions code) (Bounded P most) := by
  refine Yields.skip fun chosen => ?_
  split
  case isFalse => exact Yields.pure h
  case isTrue =>
    refine Yields.skip fun a => Yields.skip fun b => Yields.pure ?_
    exact ⟨by simpa [length_swapAt] using h.least, by simpa [length_swapAt] using h.most,
      fun i hi => h.each i (mem_of_mem_swapAt hi)⟩

/-- A varied program has other instructions, and what every round keeps. -/
theorem varyProgram_keeps {I : List Instruction → Prop}
    (keep : ∀ code, I code → Yields (m.varyInstructions s code) I) {p : Program}
    (h : I p.instructions) (c : Counters) :
    Yields (m.varyProgram s p c) fun made =>
      ∃ code, code ≠ p.instructions ∧ I code ∧ made = Program.create c code := by
  have varied : Yields (iterate (m.varyRound s p.instructions) roundLimit p.instructions)
      fun code => code ≠ p.instructions ∧ I code := by
    refine Yields.iterate I (fun code h => ?_) _ h
    refine (keep code h).bind fun code' h' => ?_
    split
    case isTrue => exact Yields.pure h'
    case isFalse apart => exact Yields.pure ⟨apart, h'⟩
  exact varied.bind fun code ⟨apart, h⟩ => Yields.pure ⟨code, apart, h, rfl⟩

section Rounds

variable (drawn : Yields s.randomInstruction P) (flipped : ∀ i, P i → Yields (s.flipField i) P)
  (room : s.maxProgramSize ≤ most)
include drawn flipped room

theorem varyInstructions_bounded (h : Bounded P most code) :
    Yields (m.varyInstructions s code) (Bounded P most) :=
  (deleteInstruction_bounded h).bind fun _ h => (insertInstruction_bounded drawn room h).bind
    fun _ h => (changeInstruction_bounded flipped h).bind fun _ h => exchangeInstructions_bounded h

/-- The other instructions of a varied program are within the same bounds. -/
theorem varyProgram_bounded {p : Program} (h : Bounded P most p.instructions) (c : Counters) :
    Yields (m.varyProgram s p c) fun made =>
      ∃ code, code ≠ p.instructions ∧ Bounded P most code ∧ made = Program.create c code :=
  varyProgram_keeps (fun _ => varyInstructions_bounded drawn flipped room) h c

end Rounds

end MutationSettings

end TangledGraph
