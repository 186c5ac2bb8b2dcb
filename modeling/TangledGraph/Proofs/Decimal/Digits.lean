import Mathlib.Data.List.Basic
import Mathlib.Data.List.Induction
import Mathlib.Tactic.Ring
import TangledGraph.Decimal.Reader

/-!
# Digits of natural numbers

The digits that write a natural number read back as that number. Zeros in front count
for nothing, and a positive number is written without them.
-/
namespace TangledGraph.Decimal

variable {n k : Nat} {c : Char} {front back : List Char}

/-- Digits alone. -/
def AllDigits (text : List Char) : Prop := ∀ c ∈ text, isDigit c = true

theorem AllDigits.start (digits : AllDigits front) : ∀ c ∈ front.head?, isDigit c = true :=
  fun c head => digits c (List.mem_of_mem_head? head)

theorem isDigit_iff : isDigit c = true ↔ '0' ≤ c ∧ c ≤ '9' := by
  rw [isDigit, digit?]
  split <;> simp [*]

theorem isDigit_eq : isDigit c = c.isDigit := by
  rw [Bool.eq_iff_iff, isDigit_iff]
  simp [Char.isDigit, Char.le_def]

theorem digit?_eq_some (digit : isDigit c = true) : digit? c = some (c.toNat - '0'.toNat) :=
  if_pos (isDigit_iff.1 digit)

theorem isDigit_of_mem_toDigits (mem : c ∈ Nat.toDigits 10 n) : isDigit c = true := by
  rw [isDigit_eq]
  exact Nat.isDigit_of_mem_toDigits (by decide) (by decide) mem

theorem allDigits_toDigits : AllDigits (Nat.toDigits 10 n) := fun _ => isDigit_of_mem_toDigits

theorem natural_append :
    natural (front ++ back) = natural front * 10 ^ back.length + natural back := by
  induction back using List.reverseRecOn with
  | nil => simp [natural, ofDigits]
  | append_singleton back c ih =>
    have step : ∀ text, natural (text ++ [c]) = natural text * 10 + (digit? c).getD 0 :=
      fun text => by rw [natural, ofDigits, List.foldl_append]; rfl
    rw [← List.append_assoc, step, step, ih, List.length_append, List.length_singleton, pow_succ]
    ring

theorem natural_eq_ofDigitChars (digits : AllDigits front) :
    natural front = Nat.ofDigitChars 10 front 0 := by
  induction front using List.reverseRecOn with
  | nil => rfl
  | append_singleton front c ih =>
    obtain ⟨ahead, last⟩ := List.forall_mem_append.1 digits
    have digit := last c (List.mem_singleton_self c)
    have value : natural [c] = c.toNat - '0'.toNat := by
      simp [natural, ofDigits, digit?_eq_some digit]
    rw [natural_append, ih ahead, value, Nat.ofDigitChars_append, Nat.ofDigitChars_cons,
      Nat.ofDigitChars_nil, List.length_singleton, pow_one, mul_comm]

@[simp] theorem natural_toDigits : natural (Nat.toDigits 10 n) = n := by
  rw [natural_eq_ofDigitChars allDigits_toDigits, Nat.ofDigitChars_ten_toDigits]

@[simp] theorem natural_zeros : natural (List.replicate k '0') = 0 := by
  induction k with
  | zero => rfl
  | succ k ih =>
    rw [List.replicate_succ', natural_append, ih]
    rfl

theorem toString_toList : (toString n).toList = Nat.toDigits 10 n := by
  rw [Nat.toString_eq_ofList_toDigits, String.toList_ofList]

/-- A positive number is written without a zero in front. -/
theorem head_toDigits_ne (positive : 0 < n) : (Nat.toDigits 10 n).head? ≠ some '0' := by
  induction n using Nat.strong_induction_on with
  | h n ih =>
    rw [Nat.toDigits_eq_if (by decide)]
    split
    case isTrue small =>
      have digits : ∀ d < 10, 0 < d → [Nat.digitChar d].head? ≠ some '0' := by decide
      exact digits n small positive
    case isFalse large =>
      rw [List.head?_append_of_ne_nil _ Nat.toDigits_ne_nil]
      exact ih (n / 10) (by omega) (by omega)

/-- Only zero is written with a zero in front, which is then alone. -/
theorem length_toDigits_of_head (zero : (Nat.toDigits 10 n).head? = some '0') :
    (Nat.toDigits 10 n).length = 1 := by
  obtain rfl : n = 0 := by
    by_contra positive
    exact head_toDigits_ne (by omega) zero
  rfl

end TangledGraph.Decimal
