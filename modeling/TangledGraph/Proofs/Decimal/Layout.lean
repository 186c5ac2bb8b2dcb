import TangledGraph.Decimal.Layout
import TangledGraph.Proofs.Decimal.Digits
import TangledGraph.Proofs.Decimal.Shortest

/-!
# Decimals written without an exponent

A decimal is written as its digits with a point among them. What is written has a digit
on both sides of the point, no zero in front that could be left out, and the value of
the decimal.
-/
namespace TangledGraph.Decimal

open Rounding

variable {n k : ℕ} {x : Float}

/-- Digits on both sides of a point: what they write, and no zero in front that could be
left out. -/
structure Pointed (q : ℚ) (whole places : List Char) : Prop where
  digits : AllDigits (whole ++ places)
  nonempty : whole ≠ [] ∧ places ≠ []
  lead : whole.head? = some '0' → whole.length = 1
  value : (natural (whole ++ places) : ℚ) / 10 ^ places.length = q

theorem pointed_zero (n : ℕ) : Pointed n (Nat.toDigits 10 n) ['0'] := by
  have zero : AllDigits ['0'] := List.forall_mem_singleton.2 rfl
  have nothing : natural ['0'] = 0 := rfl
  refine ⟨?_, ⟨Nat.toDigits_ne_nil, List.cons_ne_nil _ _⟩, length_toDigits_of_head, ?_⟩
  · exact List.forall_mem_append.2 ⟨allDigits_toDigits, zero⟩
  · rw [natural_append, natural_toDigits, nothing]
    simp

/-- A text of digits, with a point before the last places. -/
theorem pointed_split {text : List Char} (digits : AllDigits text) (placed : k ≠ 0)
    (room : k < text.length) (lead : text.head? = some '0' → text.length = k + 1) :
    Pointed (natural text / 10 ^ k) (text.take (text.length - k))
      (text.drop (text.length - k)) := by
  have before : (text.take (text.length - k)).length = text.length - k := by
    rw [List.length_take]
    omega
  have after : (text.drop (text.length - k)).length = k := by
    rw [List.length_drop]
    omega
  refine ⟨?_, ⟨?_, ?_⟩, fun zero => ?_, ?_⟩
  · rw [List.take_append_drop]
    exact digits
  · rw [← List.length_pos_iff, before]
    omega
  · rw [← List.length_pos_iff, after]
    omega
  · rw [List.head?_take, if_neg (by omega)] at zero
    have alone := lead zero
    rw [before]
    omega
  · rw [List.take_append_drop, after]

/-- Zeros in front of a number that has too few digits for its places. -/
def padded (n k : ℕ) : List Char :=
  List.replicate (k + 1 - (Nat.toDigits 10 n).length) '0' ++ Nat.toDigits 10 n

theorem natural_padded : natural (padded n k) = n := by
  rw [padded, natural_append, natural_zeros, natural_toDigits, Nat.zero_mul, Nat.zero_add]

theorem allDigits_padded : AllDigits (padded n k) := by
  refine List.forall_mem_append.2 ⟨fun c mem => ?_, allDigits_toDigits⟩
  rw [List.eq_of_mem_replicate mem]
  rfl

theorem length_padded : (padded n k).length = max (k + 1) (Nat.toDigits 10 n).length := by
  rw [padded, List.length_append, List.length_replicate]
  omega

/-- A zero in front stands for all that is before the point. -/
theorem length_padded_of_head (placed : k ≠ 0) (zero : (padded n k).head? = some '0') :
    (padded n k).length = k + 1 := by
  by_cases short : (Nat.toDigits 10 n).length ≤ k
  · rw [length_padded]
    omega
  · have none : k + 1 - (Nat.toDigits 10 n).length = 0 := by omega
    rw [padded, none, List.replicate_zero, List.nil_append] at zero
    have alone := length_toDigits_of_head zero
    omega

/-- A point before the last places, after zeros if there are too few digits. -/
theorem pointed_places (n : ℕ) (placed : k ≠ 0) :
    ∃ whole places, (pointed n k).toList = whole ++ '.' :: places ∧
      Pointed (n / 10 ^ k) whole places ∧ places.length = k := by
  have room : k < (padded n k).length := by
    rw [length_padded]
    omega
  have split := pointed_split allDigits_padded placed room (length_padded_of_head placed)
  rw [natural_padded] at split
  refine ⟨_, _, ?_, split, ?_⟩
  · rw [pointed, if_neg placed, String.toList_ofList]
    simp only [toString_toList, padded]
  · rw [List.length_drop]
    omega

/-- A decimal with `.0` after a whole number. -/
def layout (d : Decimal) : String :=
  if 0 ≤ d.exponent then d.positional ++ ".0" else d.positional

theorem layout_pointed (d : Decimal) :
    ∃ whole places, (layout d).toList = whole ++ '.' :: places ∧ Pointed (value d) whole places ∧
      (places.length : ℤ) = max 1 (-d.exponent) := by
  obtain ⟨n, p⟩ := d
  by_cases large : 0 ≤ p
  · obtain ⟨k, rfl⟩ := Int.eq_ofNat_of_zero_le large
    have plain : positional ⟨n, (k : ℤ)⟩ = pointed (n * Nat.pow 10 k) 0 := by
      rw [positional]
      simp
    have text : pointed (n * Nat.pow 10 k) 0 = toString (n * Nat.pow 10 k) := rfl
    have number : value ⟨n, (k : ℤ)⟩ = (n * Nat.pow 10 k : ℕ) := by
      rw [value, zpow_natCast, Nat.pow_eq]
      push_cast
      rfl
    refine ⟨Nat.toDigits 10 (n * Nat.pow 10 k), ['0'], ?_, ?_, ?_⟩
    · rw [layout, if_pos large, plain, text, String.toList_append, toString_toList]
      rfl
    · rw [number]
      exact pointed_zero _
    · simp
  · obtain ⟨k, rfl⟩ : ∃ k : ℕ, p = -k := ⟨(-p).toNat, by omega⟩
    have plain : positional ⟨n, -(k : ℤ)⟩ = pointed n k := by
      rw [positional]
      simp
    have number : value ⟨n, -(k : ℤ)⟩ = n / 10 ^ k := by
      rw [value, zpow_neg, zpow_natCast, div_eq_mul_inv]
    obtain ⟨whole, places, text, pointed, length⟩ := pointed_places n (k := k) (by omega)
    refine ⟨whole, places, ?_, number ▸ pointed, by dsimp only; omega⟩
    rw [layout, if_neg large, plain]
    exact text

theorem fractional_toList (number : x.isNaN = false) : (fractional x).toList =
    (if negative x then ['-'] else []) ++
      (if x.isInf then ['i', 'n', 'f'] else (layout (shortest x)).toList) := by
  have sign : (if negative x then "-" else "").toList = if negative x then ['-'] else [] := by
    split <;> rfl
  have magnitude : (if x.isInf then "inf" else layout (shortest x)).toList =
      if x.isInf then ['i', 'n', 'f'] else (layout (shortest x)).toList := by
    split <;> rfl
  rw [← sign, ← magnitude, ← String.toList_append, fractional, signed, number,
    if_neg Bool.false_ne_true]
  rfl

end TangledGraph.Decimal
