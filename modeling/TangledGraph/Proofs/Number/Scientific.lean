import TangledGraph.Proofs.Number.Operations

/-!
# Decimal fractions

A number of digits over a power of ten becomes the float nearest to it: by one division
of floats where both are exact, and else by one division of mantissas.
-/
namespace TangledGraph.Rounding

open Float.Model Float.Model.UnpackedFloat

variable {x : Float} {m n k : ℕ} {e : ℤ}

theorem IsPositive.extent_eq (h : IsPositive x m e) :
    x.isFinite = true ∧ extent x = m * 2 ^ e := by
  obtain ⟨pos, unpacked⟩ := h
  have finite : x.isFinite = UnpackedFloat.isFinite x.toModel.unpack := rfl
  refine ⟨by rw [finite, unpacked]; rfl, ?_⟩
  rw [extent, unpacked]
  rfl

/-- A power as one whole number over another. -/
theorem zpow_mul_toNat {b : ℚ} (nonzero : b ≠ 0) (e : ℤ) :
    b ^ e * b ^ (-e).toNat = b ^ e.toNat := by
  rw [← zpow_natCast, ← zpow_natCast, ← zpow_add₀ nonzero]
  congr 1
  omega

/-- Whether a float is a power of ten. -/
def isPowerOfTen (k : ℕ) (x : Float) : Bool :=
  match x.toModel.unpack with
  | .finite .positive m e _ => m * 2 ^ e.toNat = 10 ^ k * 2 ^ (-e).toNat
  | _ => false

theorem extent_of_isPowerOfTen (power : isPowerOfTen k x = true) :
    x.isFinite = true ∧ extent x = 10 ^ k := by
  unfold isPowerOfTen at power
  split at power
  case h_2 => cases power
  case h_1 m e pos unpacked =>
    obtain ⟨finite, value⟩ := IsPositive.extent_eq ⟨pos, unpacked⟩
    refine ⟨finite, ?_⟩
    have scaled : (m : ℚ) * 2 ^ e.toNat = 10 ^ k * 2 ^ (-e).toNat := by
      exact_mod_cast of_decide_eq_true power
    rw [← zpow_mul_toNat two_ne_zero, ← mul_assoc] at scaled
    rw [value]
    exact mul_right_cancel₀ (by positivity) scaled

/-- The powers of ten that have 53 bits or fewer, zeros at the end aside. -/
theorem extent_powerOfTen (small : k < 23) :
    (Float.exactlyRepresentablePowersOfTen[k]).isFinite = true ∧
      extent Float.exactlyRepresentablePowersOfTen[k] = 10 ^ k := by
  have powers : ∀ k : Fin 23, isPowerOfTen k Float.exactlyRepresentablePowersOfTen[k] = true := by
    decide +kernel
  exact extent_of_isPowerOfTen (powers ⟨k, small⟩)

/-- The float of a number of digits over a power of ten is the quotient, rounded. -/
theorem rounds_ofScientific (pos : 0 < n) (some : 0 < k) (few : k ≤ 2048) :
    Rounds (n / 10 ^ k) (Float.ofScientific n true k) := by
  rw [Float.ofScientific]
  split
  case isTrue exact =>
    have bits : n.log2 ≤ 52 := Nat.lt_succ_iff.1 ((Nat.log2_lt pos.ne').2 exact.1)
    obtain ⟨finite, value⟩ := (isPositive_toFloat pos bits).extent_eq
    obtain ⟨finite', value'⟩ := extent_powerOfTen (Nat.lt_succ_of_le exact.2)
    have count : ((n * 2 ^ (52 - n.log2) : ℕ) : ℚ) * 2 ^ (-(52 - n.log2 : ℕ) : ℤ) = n := by
      rw [zpow_neg, zpow_natCast]
      push_cast
      field_simp
    have quotient := rounds_div finite finite' (by rw [value']; positivity)
    rw [value, value', count] at quotient
    exact quotient
  case isFalse =>
    have exponent : Int.negOfNat k = -k := Int.negOfNat_eq
    have capacity : (2 : Int) ^ Format.binary64.exponentBits = 2048 := by decide
    have ten : (- -(k : Int)).toNat = k := by omega
    have quotient : signed .positive ((n : ℚ) * 2 ^ (0 : ℤ) / ((10 ^ k : ℕ) * 2 ^ (0 : ℤ))) =
        n / 10 ^ k := by simp [signed]
    show Rounds _ (Float.ofModel (Float.Model.ofScientific n (Int.negOfNat k)))
    have model : (Float.ofModel (Float.Model.ofScientific n (-k))).toModel =
        Float.Model.pack (UnpackedFloat.ofScientific Format.binary64 n (-k)) := rfl
    rw [UnpackedFloat.ofScientific, dif_neg pos.ne', capacity, if_neg (by omega),
      if_neg (by omega), if_neg (by omega)] at model
    simp only [ten] at model
    rw [exponent, ← quotient]
    exact rounds_of_divCore pos (pow_pos (by decide) k) model

end TangledGraph.Rounding
