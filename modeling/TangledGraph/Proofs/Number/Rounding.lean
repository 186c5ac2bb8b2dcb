import Mathlib

/-!
# Rounding of floats

A finite float is a mantissa below 2^53 times a power of two. A product is
rounded to the nearest such number. What follows is as much of this as bounds
the whole part of a product from above.
-/
namespace TangledGraph

open Float.Model Float.Model.UnpackedFloat

namespace Rounding

/-- A shift divides the mantissa; a round bit means that at least half a unit
was dropped. -/
theorem shiftRight_exact (m k : Nat) :
    let em : ExtendedMantissa := ExtendedMantissa.ofMantissaAndAccuracy m .exact >>> k
    em.mantissa = m / 2 ^ k ∧ (em.roundBit = true → 2 * em.mantissa * 2 ^ k + 2 ^ k ≤ 2 * m) := by
  induction k with
  | zero => exact ⟨(Nat.div_one m).symm, nofun⟩
  | succ k ih =>
    obtain ⟨mantissa, -⟩ := ih
    intro em
    have half : em.mantissa = m / 2 ^ k / 2 := congrArg (· / 2) mantissa
    constructor
    · rw [half, Nat.div_div_eq_div_mul, Nat.pow_succ]
    · intro round
      have odd : m / 2 ^ k % 2 ≠ 0 := by
        have : (m / 2 ^ k % 2 != 0) = true := mantissa ▸ round
        simpa using this
      have split : 2 * em.mantissa + 1 = m / 2 ^ k := by omega
      calc 2 * em.mantissa * 2 ^ (k + 1) + 2 ^ (k + 1)
          = 2 * ((2 * em.mantissa + 1) * 2 ^ k) := by ring
        _ = 2 * (m / 2 ^ k * 2 ^ k) := by rw [split]
        _ ≤ 2 * m := Nat.mul_le_mul_left 2 (Nat.div_mul_le_self m _)

theorem roundedMantissa_bounds (em : ExtendedMantissa) :
    em.mantissa ≤ em.roundedMantissa ∧
      em.roundedMantissa ≤ em.mantissa + (if em.roundBit then 1 else 0) := by
  obtain ⟨m, r, s⟩ := em
  cases r <;> cases s <;>
    simp [ExtendedMantissa.roundedMantissa, ExtendedMantissa.accuracy, Accuracy.roundToNearestEven]
  omega

/-- The rounded mantissa after a shift is a neighbour of the quotient, and no
more than half a unit above it. -/
theorem rounded_bounds (m k : Nat) :
    let r := (ExtendedMantissa.ofMantissaAndAccuracy m .exact >>> k).roundedMantissa
    m / 2 ^ k ≤ r ∧ r ≤ m / 2 ^ k + 1 ∧ 2 * r * 2 ^ k ≤ 2 * m + 2 ^ k := by
  intro r
  obtain ⟨mantissa, half⟩ := shiftRight_exact m k
  obtain ⟨low, high⟩ := roundedMantissa_bounds
    (ExtendedMantissa.ofMantissaAndAccuracy m .exact >>> k)
  rw [mantissa] at low high half
  have floor : m / 2 ^ k * 2 ^ k ≤ m := Nat.div_mul_le_self m _
  split at high
  case isTrue round =>
    refine ⟨low, high, ?_⟩
    calc 2 * r * 2 ^ k ≤ 2 * (m / 2 ^ k + 1) * 2 ^ k :=
          Nat.mul_le_mul_right _ (Nat.mul_le_mul_left 2 high)
      _ = (2 * (m / 2 ^ k) * 2 ^ k + 2 ^ k) + 2 ^ k := by ring
      _ ≤ 2 * m + 2 ^ k := Nat.add_le_add_right (half round) _
  case isFalse =>
    refine ⟨low, Nat.le_succ_of_le high, ?_⟩
    calc 2 * r * 2 ^ k ≤ 2 * (m / 2 ^ k) * 2 ^ k :=
          Nat.mul_le_mul_right _ (Nat.mul_le_mul_left 2 high)
      _ = 2 * (m / 2 ^ k * 2 ^ k) := by ring
      _ ≤ 2 * m := Nat.mul_le_mul_left 2 floor
      _ ≤ 2 * m + 2 ^ k := Nat.le_add_right _ _

/-- The exponent that a number is rounded to. -/
def place (m : Nat) (e : Int) : Int := max (m.log2 - 52 + e) (-1074)

theorem targetExponent_eq (m : Nat) (e : Int) :
    Format.binary64.targetExponent (totalExponent m e) = place m e := by
  simp only [Format.targetExponent, totalExponent, Format.mantissaBits, Format.minExponent, place]
  omega

theorem shiftToTargetExponent_eq (m : Nat) (e : Int) (accuracy : Accuracy) :
    shiftToTargetExponent Format.binary64 m e accuracy =
      (ExtendedMantissa.ofMantissaAndAccuracy m accuracy >>> (place m e - e).toNat,
        e + (place m e - e).toNat) := by
  simp only [shiftToTargetExponent, shiftToExponent, targetExponent_eq]

/-- A mantissa of 53 bits or fewer is in place already, if its exponent is not
too small. -/
theorem shift_of_lt {m : Nat} {e : Int} (small : m < 2 ^ 53) (low : -1074 ≤ e) :
    shiftToTargetExponent Format.binary64 m e .exact = (⟨m, false, false⟩, e) := by
  have bits : m.log2 ≤ 52 := by
    by_cases zero : m = 0
    · simp [zero]
    · have := (Nat.log2_lt zero).2 small
      omega
  have still : (place m e - e).toNat = 0 := by
    unfold place
    omega
  rw [shiftToTargetExponent_eq, still]
  simp only [ExtendedMantissa.ofMantissaAndAccuracy, Nat.cast_zero, Int.add_zero, Prod.mk.injEq,
    and_true]
  rfl

theorem shift_of_carry {e : Int} (low : -1074 ≤ e) :
    shiftToTargetExponent Format.binary64 (2 ^ 53) e .exact = (⟨2 ^ 52, false, false⟩, e + 1) := by
  have one : (place (2 ^ 53) e - e).toNat = 1 := by
    unfold place
    rw [Nat.log2_two_pow]
    omega
  rw [shiftToTargetExponent_eq, one]
  rfl

/-- A number with an exponent below its place is rounded there; if its mantissa
becomes the next power of two, it takes one place more. -/
theorem roundWithAccuracy_of_rounded (s : Sign) {m : Nat} {e : Int} {accuracy : Accuracy} {r : Nat}
    (le : e ≤ place m e) (small : r ≤ 2 ^ 53)
    (rounded : (ExtendedMantissa.ofMantissaAndAccuracy m accuracy >>>
      (place m e - e).toNat).roundedMantissa = r) :
    roundWithAccuracy Format.binary64 s m e accuracy =
      if h : r = 0 then .zero s
      else if r < 2 ^ 53 then .finite s r (place m e) (Nat.pos_of_ne_zero h)
      else .finite s (2 ^ 52) (place m e + 1) (by decide) := by
  have exponent : e + (place m e - e).toNat = place m e := by omega
  have low : -1074 ≤ place m e := le_max_right _ _
  rw [roundWithAccuracy, shiftToTargetExponent_eq, exponent]
  dsimp only
  rw [rounded]
  by_cases inside : r < 2 ^ 53
  · rw [shift_of_lt inside low]
    simp only [inside, if_true]
  · obtain rfl : r = 2 ^ 53 := by omega
    rw [shift_of_carry low]
    rfl

/-- An exact number is rounded to a mantissa of at most 53 bits, no more than half
a unit above it. -/
theorem roundWithAccuracy_eq (s : Sign) {m : Nat} {e : Int} (le : e ≤ place m e) :
    ∃ r, r ≤ 2 ^ 53 ∧ m / 2 ^ (place m e - e).toNat ≤ r ∧
      2 * r * 2 ^ (place m e - e).toNat ≤ 2 * m + 2 ^ (place m e - e).toNat ∧
      roundWithAccuracy Format.binary64 s m e .exact =
        if h : r = 0 then .zero s
        else if r < 2 ^ 53 then .finite s r (place m e) (Nat.pos_of_ne_zero h)
        else .finite s (2 ^ 52) (place m e + 1) (by decide) := by
  obtain ⟨floor, high, near⟩ := rounded_bounds m (place m e - e).toNat
  have bits : m / 2 ^ (place m e - e).toNat < 2 ^ 53 := by
    have : m < 2 ^ ((place m e - e).toNat + 53) := by
      refine Nat.lt_of_lt_of_le Nat.lt_log2_self (Nat.pow_le_pow_right (by decide) ?_)
      unfold place
      omega
    rw [Nat.pow_add] at this
    exact Nat.div_lt_of_lt_mul this
  exact ⟨_, by omega, floor, near, roundWithAccuracy_of_rounded s le (by omega) rfl⟩

/-- A float is the positive number with a mantissa and an exponent. -/
def IsPositive (x : Float) (m : Nat) (e : Int) : Prop :=
  ∃ h, x.toModel.unpack = .finite .positive m e h

theorem unpackSign_packComponents {spec : Format} {s : Sign} {e : BitVec spec.exponentBits}
    {m : BitVec spec.mantissaBitsWithoutImplicit} :
    unpackSign (packComponents spec s e m) = s.toBitVec := by
  apply BitVec.eq_of_getLsbD_eq
  intro i hi
  obtain rfl : i = 0 := by omega
  simp [unpackSign, packComponents, BitVec.getLsbD_append, BitVec.getElem_append]

theorem ofBitVec_toBitVec (s : Sign) : Sign.ofBitVec s.toBitVec = s := by
  cases s <;> rfl

/-- The implicit bit is above the stored ones. -/
theorem toNat_implicit {m : Nat} (normal : 2 ^ 52 ≤ m) (small : m < 2 ^ 53) :
    (1#1 ++ BitVec.ofNat 52 m).toNat = m := by
  have stored : (1#1 ++ BitVec.ofNat 52 m).toNat = 2 ^ 52 + m % 2 ^ 52 := by
    rw [BitVec.toNat_append, ← Nat.shiftLeft_add_eq_or_of_lt (BitVec.isLt _), BitVec.toNat_ofNat]
    simp [Nat.shiftLeft_eq]
  omega

/-- A number with 53 bits is stored without the first of them. -/
theorem unpack_pack_normal {s : Sign} {m : Nat} {e : Int} (h : 0 < m) (small : m < 2 ^ 53)
    (low : -1074 ≤ e) (high : e ≤ 971) (normal : 2 ^ 52 ≤ m) :
    (Float.Model.pack (.finite s m e h)).unpack = .finite s m e h := by
  have bias : (Format.binary64.exponentBias : Int) = 1023 := rfl
  have capacity : 2 ^ Format.binary64.exponentBits = 2048 := rfl
  have width : Format.binary64.mantissaBits = 53 := rfl
  have ones : (-1#11).toNat = 2047 := rfl
  have bits : m.log2 + 1 = Format.binary64.mantissaBits := by
    have := (Nat.log2_lt h.ne').2 small
    have := (Nat.le_log2 h.ne').2 normal
    omega
  have biased : (BitVec.ofNat 11 (e + 1023 + 52).toNat).toNat = (e + 1023 + 52).toNat := by
    rw [BitVec.toNat_ofNat, Nat.mod_eq_of_lt (by omega)]
  have finite : BitVec.ofNat 11 (e + 1023 + 52).toNat ≠ -1#11 := by
    intro eq
    rw [eq, ones] at biased
    omega
  have nonzero : BitVec.ofNat 11 (e + 1023 + 52).toNat ≠ 0#11 := by
    intro eq
    rw [eq, BitVec.toNat_zero] at biased
    omega
  unfold Float.Model.unpack Float.Model.pack
  simp only [UnpackedFloat.pack]
  rw [if_neg (by rw [capacity, bias]; omega), if_pos bits]
  simp only [UnpackedFloat.unpack, unpackMantissa_packComponents, unpackExponent_packComponents,
    unpackSign_packComponents, ofBitVec_toBitVec, bias, Nat.cast_ofNat]
  rw [if_neg finite, if_neg nonzero]
  simp only [toNat_implicit normal small, biased, UnpackedFloat.finite.injEq, true_and]
  omega

/-- A number with fewer bits is stored as it is, at the least exponent. -/
theorem unpack_pack_subnormal {s : Sign} {m : Nat} (h : 0 < m) (fewer : m < 2 ^ 52) :
    (Float.Model.pack (.finite s m (-1074) h)).unpack = .finite s m (-1074) h := by
  have bias : (Format.binary64.exponentBias : Int) = 1023 := rfl
  have capacity : 2 ^ Format.binary64.exponentBits = 2048 := rfl
  have width : Format.binary64.mantissaBits = 53 := rfl
  have bits : ¬m.log2 + 1 = Format.binary64.mantissaBits := by
    have := (Nat.log2_lt h.ne').2 fewer
    omega
  have stored : (BitVec.ofNat 52 m).toNat = m := by
    rw [BitVec.toNat_ofNat, Nat.mod_eq_of_lt fewer]
  have nonzero : BitVec.ofNat 52 m ≠ 0#52 := by
    intro eq
    rw [eq, BitVec.toNat_zero] at stored
    omega
  unfold Float.Model.unpack Float.Model.pack
  simp only [UnpackedFloat.pack]
  rw [if_neg (by rw [capacity, bias]; omega), if_neg bits]
  simp only [UnpackedFloat.unpack, unpackMantissa_packComponents, unpackExponent_packComponents,
    unpackSign_packComponents, ofBitVec_toBitVec, bias, Nat.cast_ofNat]
  rw [if_neg (by decide), if_pos trivial, dif_neg nonzero]
  simp only [stored, UnpackedFloat.finite.injEq, true_and, BitVec.toNat_zero]
  omega

/-- A number in place can be stored. -/
theorem unpack_pack {s : Sign} {m : Nat} {e : Int} (h : 0 < m) (small : m < 2 ^ 53)
    (low : -1074 ≤ e) (high : e ≤ 971) (inPlace : 2 ^ 52 ≤ m ∨ e = -1074) :
    (Float.Model.pack (.finite s m e h)).unpack = .finite s m e h := by
  obtain fewer | normal := Nat.lt_or_ge m (2 ^ 52)
  · obtain rfl := inPlace.resolve_left (Nat.not_le.2 fewer)
    exact unpack_pack_subnormal h fewer
  · exact unpack_pack_normal h small low high normal

/-- Stored mantissas have at most 53 bits, and exactly as many if the exponent is
not the least one. -/
theorem unpack_bounds {b : BitVec Format.binary64.numBits} {s : Sign} {m : Nat} {e : Int}
    {pos : 0 < m} (h : UnpackedFloat.unpack Format.binary64 b = .finite s m e pos) :
    m < 2 ^ 53 ∧ -1074 ≤ e ∧ (2 ^ 52 ≤ m ∨ e = -1074) := by
  have bias : (Format.binary64.exponentBias : Int) = 1023 := rfl
  have small : (unpackMantissa b).toNat < 2 ^ 52 := (unpackMantissa b).isLt
  simp only [UnpackedFloat.unpack, bias, Nat.cast_ofNat] at h
  split at h
  · split at h <;> simp at h
  split at h
  case isTrue zero =>
    split at h
    · simp at h
    · rw [zero, BitVec.toNat_zero] at h
      simp only [UnpackedFloat.finite.injEq] at h
      omega
  case isFalse nonzero =>
    have implicit : (1#1 ++ unpackMantissa b).toNat = 2 ^ 52 + (unpackMantissa b).toNat := by
      rw [BitVec.toNat_append, ← Nat.shiftLeft_add_eq_or_of_lt (unpackMantissa b).isLt]
      simp [Nat.shiftLeft_eq]
    have positive : (unpackExponent b).toNat ≠ 0 := fun zero =>
      nonzero (BitVec.eq_of_toNat_eq zero)
    simp only [UnpackedFloat.finite.injEq, implicit] at h
    omega

/-- The whole part of a positive number is not above it. -/
theorem IsPositive.toUInt64_le {x : Float} {m : Nat} {e : Int} (h : IsPositive x m e) :
    (x.toUInt64.toNat : ℚ) ≤ m * 2 ^ e := by
  obtain ⟨pos, eq⟩ := h
  have clamp (n : Nat) : (UInt64.ofNatClamp n).toNat ≤ n := by
    unfold UInt64.ofNatClamp
    split
    · simp
    case isFalse large => exact Nat.le_trans (Nat.sub_le _ _) (Nat.not_lt.1 large)
  have whole : x.toUInt64.toNat ≤ m * 2 ^ e.toNat / 2 ^ (-e).toNat := by
    refine Nat.le_trans (clamp _) ?_
    rw [eq]
    simp only [toInt, roundToInt, decreaseExponent, shiftToExponent, Int.sub_zero, Sign.apply]
    have exponent : (0 - (e - (e.toNat : Int))).toNat = (-e).toNat := by omega
    rw [Int.toNat_natCast, (shiftRight_exact _ _).1, Nat.shiftLeft_eq, exponent]
  rw [Nat.le_div_iff_mul_le (Nat.two_pow_pos _)] at whole
  have split : (2 : ℚ) ^ e * 2 ^ (-e).toNat = 2 ^ e.toNat := by
    rw [← zpow_natCast, ← zpow_natCast, ← zpow_add₀ two_ne_zero]
    congr 1
    omega
  have cast : (x.toUInt64.toNat : ℚ) * 2 ^ (-e).toNat ≤ m * 2 ^ e.toNat := by exact_mod_cast whole
  rw [← split, ← mul_assoc] at cast
  exact le_of_mul_le_mul_right cast (by positivity)

theorem unpack_pack_zero (s : Sign) : (Float.Model.pack (.zero s)).unpack = .zero s := by
  cases s <;> rfl

/-- What rounding made of a number: a mantissa at an exponent, where a mantissa of
2^53 has moved on by one place. -/
def IsRounded (x : Float) (r : Nat) (q : Int) : Prop :=
  r = 0 ∧ x.toModel.unpack = .zero .positive ∨ r < 2 ^ 53 ∧ IsPositive x r q ∨
    r = 2 ^ 53 ∧ IsPositive x (2 ^ 52) (q + 1)

theorem toUInt64_of_zero {x : Float} {s : Sign} (zero : x.toModel.unpack = .zero s) :
    x.toUInt64.toNat = 0 := by
  have unfolded :
      x.toUInt64 = UInt64.ofNatClamp (toInt 0 (UInt64.size - 1) x.toModel.unpack).toNat := rfl
  rw [unfolded, zero]
  rfl

theorem IsRounded.toUInt64_le {x : Float} {r : Nat} {q : Int} (h : IsRounded x r q) :
    (x.toUInt64.toNat : ℚ) ≤ r * 2 ^ q := by
  obtain ⟨rfl, zero⟩ | ⟨-, stays⟩ | ⟨rfl, moves⟩ := h
  · simp [toUInt64_of_zero zero]
  · exact stays.toUInt64_le
  · refine moves.toUInt64_le.trans_eq ?_
    rw [zpow_add_one₀ two_ne_zero]
    push_cast
    ring

/-- Where a number goes: to the nearest one in place. -/
theorem isRounded_of_model {x : Float} {m : Nat} {e : Int} (pos : 0 < m) (le : e ≤ place m e)
    (high : place m e ≤ 970)
    (model : x.toModel = Float.Model.pack
      (roundWithAccuracy Format.binary64 .positive m e .exact)) :
    ∃ r, r ≤ 2 ^ 53 ∧ m / 2 ^ (place m e - e).toNat ≤ r ∧
      2 * r * 2 ^ (place m e - e).toNat ≤ 2 * m + 2 ^ (place m e - e).toNat ∧
      IsRounded x r (place m e) := by
  obtain ⟨r, small, floor, near, rounded⟩ := roundWithAccuracy_eq .positive le
  have low : -1074 ≤ place m e := le_max_right _ _
  refine ⟨r, small, floor, near, ?_⟩
  unfold IsRounded IsPositive
  rw [model, rounded]
  by_cases zero : r = 0
  · rw [dif_pos zero]
    exact .inl ⟨zero, rfl⟩
  rw [dif_neg zero]
  by_cases carry : r < 2 ^ 53
  · have inPlace : 2 ^ 52 ≤ r ∨ place m e = -1074 := by
      by_cases least : place m e = -1074
      · exact .inr least
      refine .inl (Nat.le_trans ?_ floor)
      rw [Nat.le_div_iff_mul_le (Nat.two_pow_pos _), ← Nat.pow_add]
      refine Nat.le_trans (Nat.pow_le_pow_right (by decide) ?_) (Nat.log2_self_le pos.ne')
      unfold place at least le ⊢
      omega
    rw [if_pos carry, unpack_pack _ carry low (by omega) inPlace]
    exact .inr (.inl ⟨carry, _, rfl⟩)
  · rw [if_neg carry, unpack_pack _ (by decide) (by omega) (by omega) (.inl (by decide))]
    exact .inr (.inr ⟨by omega, _, rfl⟩)

/-- A product of positive numbers is rounded to the nearest number in place. -/
theorem IsPositive.mul {x y : Float} {m n : Nat} {d e : Int} (hx : IsPositive x m d)
    (hy : IsPositive y n e) (le : d + e ≤ place (m * n) (d + e))
    (high : place (m * n) (d + e) ≤ 970) :
    ∃ r, r ≤ 2 ^ 53 ∧ m * n / 2 ^ (place (m * n) (d + e) - (d + e)).toNat ≤ r ∧
      2 * r * 2 ^ (place (m * n) (d + e) - (d + e)).toNat ≤
        2 * (m * n) + 2 ^ (place (m * n) (d + e) - (d + e)).toNat ∧
      IsRounded (x * y) r (place (m * n) (d + e)) := by
  obtain ⟨posx, eqx⟩ := hx
  obtain ⟨posy, eqy⟩ := hy
  apply isRounded_of_model (Nat.mul_pos posx posy) le high
  have unfolded : (x * y).toModel = Float.Model.pack
      (UnpackedFloat.mul Format.binary64 x.toModel.unpack y.toModel.unpack) := rfl
  rw [unfolded, eqx, eqy]
  rfl

/-- A number in place is rounded to itself. -/
theorem IsRounded.of_normal {x : Float} {m k r : Nat} {q : Int} (small : m < 2 ^ 53)
    (floor : m * 2 ^ k / 2 ^ k ≤ r) (near : 2 * r * 2 ^ k ≤ 2 * (m * 2 ^ k) + 2 ^ k)
    (h : IsRounded x r q) (pos : 0 < m) : IsPositive x m q := by
  rw [Nat.mul_div_cancel _ (Nat.two_pow_pos k)] at floor
  have high : 2 * r ≤ 2 * m + 1 := by
    refine Nat.le_of_mul_le_mul_right ?_ (Nat.two_pow_pos k)
    calc 2 * r * 2 ^ k ≤ 2 * (m * 2 ^ k) + 2 ^ k := near
      _ = (2 * m + 1) * 2 ^ k := by ring
  obtain rfl : r = m := by omega
  obtain ⟨zero, -⟩ | ⟨-, stays⟩ | ⟨carry, -⟩ := h
  · omega
  · exact stays
  · omega

theorem place_of_normal {m : Nat} {e : Int} (bits : m.log2 = 52) (low : -1074 ≤ e) :
    place m e = e := by
  unfold place
  omega

theorem log2_mul_two_pow {m : Nat} (pos : m ≠ 0) (k : Nat) : (m * 2 ^ k).log2 = m.log2 + k := by
  have nonzero : m * 2 ^ k ≠ 0 := Nat.mul_ne_zero pos (Nat.two_pow_pos k).ne'
  apply Nat.le_antisymm
  · apply Nat.le_of_lt_succ
    rw [Nat.log2_lt nonzero, ← Nat.succ_add, Nat.pow_add]
    exact Nat.mul_lt_mul_of_pos_right Nat.lt_log2_self (Nat.two_pow_pos k)
  · rw [Nat.le_log2 nonzero, Nat.pow_add]
    exact Nat.mul_le_mul_right _ (Nat.log2_self_le pos)

/-- A count of at most 53 bits, with as many zeros as it takes for 53. -/
theorem isPositive_toFloat {n : Nat} (pos : 0 < n) (bits : n.log2 ≤ 52) :
    IsPositive n.toUInt64.toFloat (n * 2 ^ (52 - n.log2)) (-(52 - n.log2 : Nat)) := by
  have small : n < 2 ^ 53 := (Nat.log2_lt pos.ne').1 (Nat.lt_succ_of_le bits)
  have value : n.toUInt64.toNat = n := by
    rw [Nat.toUInt64, UInt64.toNat_ofNat', Nat.mod_eq_of_lt (by omega)]
  have normal : (n * 2 ^ (52 - n.log2)).log2 = 52 := by
    rw [log2_mul_two_pow pos.ne']
    omega
  have positive : 0 < n * 2 ^ (52 - n.log2) := Nat.mul_pos pos (Nat.two_pow_pos _)
  have inPlace := place_of_normal normal (show (-1074 : Int) ≤ -(52 - n.log2 : Nat) by omega)
  obtain ⟨r, -, floor, near, rounded⟩ := isRounded_of_model positive inPlace.ge (by omega)
    (x := n.toUInt64.toFloat) (by
      have unfolded : n.toUInt64.toFloat.toModel = Float.Model.pack
          (normalize Format.binary64 n.toUInt64.toNat 0 .positive) := rfl
      have greater : compare (n : Int) 0 = .gt := Int.compare_eq_gt.2 (by omega)
      have zeros : (-place n 0).toNat = 52 - n.log2 := by
        unfold place
        omega
      rw [unfolded, value]
      simp only [UnpackedFloat.normalize, greater, UnpackedFloat.round, decreaseExponent,
        targetExponent_eq, Int.toNat_natCast, Int.zero_sub, zeros, Nat.shiftLeft_eq])
  rw [inPlace, Int.sub_self, Int.toNat_zero] at floor near
  rw [inPlace] at rounded
  have top : n * 2 ^ (52 - n.log2) < 2 ^ 53 := (Nat.log2_lt positive.ne').1 (by omega)
  exact rounded.of_normal top (k := 0) (by simpa using floor) (by simpa using near) positive

theorem isPositive_one : IsPositive 1.0 (2 ^ 52) (-52) := ⟨by decide, rfl⟩

/-- A float with 53 bits times one is itself. -/
theorem IsPositive.mul_one {x : Float} {m : Nat} {e : Int} (h : IsPositive x m e)
    (bits : m.log2 = 52) (low : -1022 ≤ e) (high : e ≤ 970) : IsPositive (x * 1.0) m e := by
  obtain ⟨pos, -⟩ := id h
  have inPlace : place (m * 2 ^ 52) (e + -52) = e := by
    unfold place
    rw [log2_mul_two_pow pos.ne', bits]
    omega
  have shift : (e - (e + -52)).toNat = 52 := by omega
  obtain ⟨r, -, floor, near, rounded⟩ := h.mul isPositive_one (by omega) (by omega)
  rw [inPlace, shift] at floor near
  rw [inPlace] at rounded
  exact rounded.of_normal ((Nat.log2_lt pos.ne').1 (by omega)) floor near pos

/-- A count of at most 53 bits is the value of its float. -/
theorem isPositive_ofNat {n : Nat} (pos : 0 < n) (bits : n.log2 ≤ 52) :
    IsPositive (Float.ofNat n) (n * 2 ^ (52 - n.log2)) (-(52 - n.log2 : Nat)) := by
  have small : n < 2 ^ 53 := (Nat.log2_lt pos.ne').1 (Nat.lt_succ_of_le bits)
  have unfolded : Float.ofNat n = n.toUInt64.toFloat * 1.0 := by
    have scientific : Float.ofNat n = Float.ofScientific n false 0 := rfl
    rw [scientific, Float.ofScientific, dif_pos ⟨small, by decide⟩]
    rfl
  have normal : (n * 2 ^ (52 - n.log2)).log2 = 52 := by
    rw [log2_mul_two_pow pos.ne']
    omega
  rw [unfolded]
  exact (isPositive_toFloat pos bits).mul_one normal (by omega) (by omega)

theorem ofScientific_eq {n : Nat} (nonzero : n ≠ 0) :
    UnpackedFloat.ofScientific Format.binary64 n 0 =
      roundWithAccuracy Format.binary64 .positive (n * 2 ^ 53) (-53) .exact := by
  have capacity : (2 : Int) ^ Format.binary64.exponentBits = 2048 := by decide
  have width : Format.binary64.mantissaBits = 53 := rfl
  have ten : 10 ^ (0 : Int).toNat = 1 := rfl
  rw [UnpackedFloat.ofScientific, dif_neg nonzero, capacity, if_neg (by decide),
    if_neg (by omega), if_pos (Int.le_refl 0)]
  simp only [UnpackedFloat.mul, width, ten, Nat.shiftLeft_eq, Nat.mul_one, Int.add_zero]
  rfl

/-- A count of more than 53 bits is rounded once. -/
theorem ofNat_toModel {n : Nat} (large : 2 ^ 53 ≤ n) :
    (Float.ofNat n).toModel = Float.Model.pack
      (roundWithAccuracy Format.binary64 .positive (n * 2 ^ 53) (-53) .exact) := by
  have scientific : Float.ofNat n = Float.ofScientific n false 0 := rfl
  rw [scientific, Float.ofScientific, dif_neg (by omega)]
  have unfolded : (Float.ofModel (Float.Model.ofScientific n 0)).toModel =
    Float.Model.pack (UnpackedFloat.ofScientific Format.binary64 n 0) := rfl
  exact unfolded.trans (congrArg _ (ofScientific_eq (by omega)))

theorem two_pow_le_of_log2 {n : Nat} (bits : 52 < n.log2) : 2 ^ 53 ≤ n := by
  have nonzero : n ≠ 0 := by
    rintro rfl
    simp at bits
  exact (Nat.le_log2 nonzero).1 bits

/-- A count of more than 53 bits is rounded to the nearest float. -/
theorem isRounded_ofNat {n : Nat} (bits : 52 < n.log2) (small : n < 2 ^ 64) :
    ∃ r : Nat, 2 ^ 52 ≤ r ∧ (2 * (r : ℚ) - 1) * 2 ^ (n.log2 - 52 : Int) ≤ 2 * n ∧
      IsRounded (Float.ofNat n) r (n.log2 - 52) := by
  have nonzero : n ≠ 0 := by
    rintro rfl
    simp at bits
  have length : n.log2 < 64 := (Nat.log2_lt nonzero).2 small
  have exponent : place (n * 2 ^ 53) (-53) = n.log2 - 52 := by
    unfold place
    rw [log2_mul_two_pow nonzero]
    omega
  have shift : ((n.log2 : Int) - 52 - -53).toNat = n.log2 + 1 := by omega
  obtain ⟨r, -, floor, near, rounded⟩ := isRounded_of_model
    (x := Float.ofNat n) (m := n * 2 ^ 53) (e := -53) (by omega) (by omega) (by omega)
    (ofNat_toModel (two_pow_le_of_log2 bits))
  rw [exponent, shift] at floor near
  rw [exponent] at rounded
  refine ⟨r, Nat.le_trans ?_ floor, ?_, rounded⟩
  · rw [Nat.le_div_iff_mul_le (Nat.two_pow_pos _)]
    calc 2 ^ 52 * 2 ^ (n.log2 + 1) = 2 ^ n.log2 * 2 ^ 53 := by ring
      _ ≤ n * 2 ^ 53 := Nat.mul_le_mul_right _ (Nat.log2_self_le nonzero)
  · have unit : (2 : ℚ) ^ (n.log2 + 1) = 2 ^ (n.log2 - 52 : Int) * 2 ^ 53 := by
      rw [← zpow_natCast, ← zpow_natCast, ← zpow_add₀ two_ne_zero]
      congr 1
      push_cast
      ring
    have near : 2 * (r : ℚ) * 2 ^ (n.log2 + 1) ≤ 2 * (n * 2 ^ 53) + 2 ^ (n.log2 + 1) := by
      exact_mod_cast near
    rw [unit] at near
    linarith

/-- What is below the float of a count, in place, is below the count. -/
theorem below_ofNat {n : Nat} (pos : 0 < n) (small : n < 2 ^ 64) :
    ∃ m e, IsPositive (Float.ofNat n) m e ∧ 2 ^ 52 ≤ m ∧ m < 2 ^ 53 ∧ -52 ≤ e ∧ e ≤ 12 ∧
      ((m : ℚ) - 1) * 2 ^ e < n ∧ (m = 2 ^ 52 → (2 * (m : ℚ) - 1) * 2 ^ e < 2 * n) := by
  have length : n.log2 < 64 := (Nat.log2_lt pos.ne').2 small
  by_cases bits : n.log2 ≤ 52
  · have normal : (n * 2 ^ (52 - n.log2)).log2 = 52 := by
      rw [log2_mul_two_pow pos.ne']
      omega
    have positive : 0 < n * 2 ^ (52 - n.log2) := Nat.mul_pos pos (Nat.two_pow_pos _)
    have value : ((n * 2 ^ (52 - n.log2) : Nat) : ℚ) * 2 ^ (-(52 - n.log2 : Nat) : Int) = n := by
      rw [zpow_neg, zpow_natCast]
      push_cast
      rw [mul_assoc, mul_inv_cancel₀ (by positivity), MulOneClass.mul_one]
    have unit : (0 : ℚ) < 2 ^ (-(52 - n.log2 : Nat) : Int) := by positivity
    refine ⟨_, _, isPositive_ofNat pos bits, ?_, ?_, by omega, by omega, ?_, fun _ => ?_⟩
    · exact (Nat.le_log2 positive.ne').1 normal.ge
    · exact (Nat.log2_lt positive.ne').1 (by omega)
    · linarith
    · linarith
  · obtain ⟨r, least, near, rounded⟩ := isRounded_ofNat (Nat.not_le.1 bits) small
    have unit : (0 : ℚ) < 2 ^ (n.log2 - 52 : Int) := by positivity
    obtain ⟨rfl, -⟩ | ⟨less, stays⟩ | ⟨rfl, moves⟩ := rounded
    · omega
    · refine ⟨_, _, stays, least, less, by omega, by omega, by linarith, ?_⟩
      rintro rfl
      have floor : (2 : ℚ) ^ 52 * 2 ^ (n.log2 - 52 : Int) ≤ n := by
        rw [← zpow_natCast, ← zpow_add₀ two_ne_zero]
        have exponent : ((52 : Nat) : Int) + (n.log2 - 52) = (n.log2 : Nat) := by omega
        rw [exponent, zpow_natCast]
        exact_mod_cast Nat.log2_self_le pos.ne'
      push_cast
      linarith
    · refine ⟨_, _, moves, by decide, by decide, by omega, by omega, ?_, fun _ => ?_⟩
      · rw [zpow_add_one₀ two_ne_zero]
        push_cast at near ⊢
        linarith
      · rw [zpow_add_one₀ two_ne_zero]
        push_cast at near ⊢
        linarith

end Rounding

end TangledGraph
