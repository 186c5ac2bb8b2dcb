import TangledGraph.Decimal.Shortest
import TangledGraph.Proofs.Number.Extent

/-!
# The bits of a float

A float is a sign, an exponent field and a fraction. What it unpacks to tells the three
of them, so that floats other than those that are not numbers are told apart by it.
-/
namespace TangledGraph.Rounding

open Float.Model Float.Model.UnpackedFloat

variable {x y : Float} {s : Sign} {m : ℕ} {e : ℤ}

/-- The exponent field. -/
def exponentField (x : Float) : ℕ := x.toBits.toNat / 2 ^ 52 % 2 ^ 11

/-- The stored bits of the mantissa. -/
def fractionField (x : Float) : ℕ := x.toBits.toNat % 2 ^ 52

def signField (x : Float) : ℕ := x.toBits.toNat / 2 ^ 63

theorem toNat_unpackMantissa (b : BitVec Format.binary64.numBits) :
    (unpackMantissa b).toNat = b.toNat % 2 ^ 52 := by
  simp [unpackMantissa]

theorem toNat_unpackExponent (b : BitVec Format.binary64.numBits) :
    (unpackExponent b).toNat = b.toNat / 2 ^ 52 % 2 ^ 11 := by
  simp [unpackExponent, Nat.shiftRight_eq_div_pow]

theorem toNat_unpackSign (b : BitVec Format.binary64.numBits) :
    (unpackSign b).toNat = b.toNat / 2 ^ 63 := by
  have small : b.toNat < 2 ^ 64 := b.isLt
  simp only [unpackSign, BitVec.extractLsb, BitVec.toNat_cast, BitVec.extractLsb'_toNat,
    Nat.shiftRight_eq_div_pow]
  norm_num
  omega

/-- A float is told by its three fields. -/
theorem eq_of_fields (sign : signField x = signField y)
    (exponent : exponentField x = exponentField y)
    (fraction : fractionField x = fractionField y) : x = y := by
  have same : x.toBits.toNat = y.toBits.toNat := by
    unfold signField exponentField fractionField at *
    omega
  obtain ⟨⟨b, valid⟩⟩ := x
  obtain ⟨⟨c, valid'⟩⟩ := y
  obtain rfl : b = c := UInt64.toNat_inj.1 same
  rfl

/-- The sign of a float with a sign bit. -/
def signOf (bit : ℕ) : Sign := if bit = 0 then .positive else .negative

theorem ofBitVec_unpackSign (b : BitVec Format.binary64.numBits) :
    Sign.ofBitVec (unpackSign b) = signOf (b.toNat / 2 ^ 63) := by
  have bit : unpackSign b = 0#1 ↔ b.toNat / 2 ^ 63 = 0 := by
    rw [← BitVec.toNat_inj, toNat_unpackSign]
    rfl
  unfold Sign.ofBitVec signOf
  simp only [bit]

theorem unpack_eq (x : Float) : x.toModel.unpack =
    if exponentField x = 2047 then
      if fractionField x = 0 then .infinity (signOf (signField x)) else .notANumber
    else if exponentField x = 0 then
      if h : fractionField x = 0 then .zero (signOf (signField x))
      else .finite (signOf (signField x)) (fractionField x) (-1074) (Nat.pos_of_ne_zero h)
    else .finite (signOf (signField x)) (2 ^ 52 + fractionField x) (exponentField x - 1075)
      (Nat.add_pos_left (by decide) _) := by
  obtain ⟨b, bits⟩ : ∃ b : BitVec Format.binary64.numBits, x.toBits.toBitVec = b := ⟨_, rfl⟩
  have bias : (Format.binary64.exponentBias : Int) = 1023 := rfl
  have exponent : (unpackExponent b).toNat = exponentField x := by
    rw [toNat_unpackExponent, ← bits]
    rfl
  have fraction : (unpackMantissa b).toNat = fractionField x := by
    rw [toNat_unpackMantissa, ← bits]
    rfl
  have sign : Sign.ofBitVec (unpackSign b) = signOf (signField x) := by
    rw [ofBitVec_unpackSign, ← bits]
    rfl
  have full : unpackExponent b = -1#11 ↔ exponentField x = 2047 := by
    rw [← BitVec.toNat_inj, exponent]
    rfl
  have empty : unpackExponent b = 0#11 ↔ exponentField x = 0 := by
    rw [← BitVec.toNat_inj, exponent]
    rfl
  have none : unpackMantissa b = 0#52 ↔ fractionField x = 0 := by
    rw [← BitVec.toNat_inj, fraction]
    rfl
  have implicit : (1#1 ++ unpackMantissa b).toNat = 2 ^ 52 + fractionField x := by
    rw [BitVec.toNat_append, ← Nat.shiftLeft_add_eq_or_of_lt (unpackMantissa b).isLt, fraction]
    simp [Nat.shiftLeft_eq]
  have unfolded : x.toModel.unpack = UnpackedFloat.unpack Format.binary64 b := bits ▸ rfl
  rw [unfolded]
  simp only [UnpackedFloat.unpack, bias, Nat.cast_ofNat, full, empty, none, implicit, fraction,
    exponent, sign]
  split_ifs
  · rfl
  · rfl
  · rfl
  · rw [UnpackedFloat.finite.injEq]
    refine ⟨rfl, rfl, ?_⟩
    omega
  · rw [UnpackedFloat.finite.injEq]
    refine ⟨rfl, rfl, ?_⟩
    omega

theorem signOf_inj {a b : ℕ} (ha : a < 2) (hb : b < 2) (same : signOf a = signOf b) : a = b := by
  unfold signOf at same
  split_ifs at same <;> omega

theorem signField_lt (x : Float) : signField x < 2 := by
  have small := x.toBits.toNat_lt
  unfold signField
  omega

theorem fractionField_lt (x : Float) : fractionField x < 2 ^ 52 :=
  Nat.mod_lt _ (by decide)

/-- What a float unpacks to tells it, unless it is not a number. -/
theorem eq_of_unpack (number : x.isNaN = false) (same : x.toModel.unpack = y.toModel.unpack) :
    x = y := by
  have number := unpack_ne_notANumber number
  have hx := fractionField_lt x
  have hy := fractionField_lt y
  have sign := signOf_inj (signField_lt x) (signField_lt y)
  rw [unpack_eq x] at number
  rw [unpack_eq x, unpack_eq y] at same
  split_ifs at number same <;>
    simp only [UnpackedFloat.infinity.injEq, UnpackedFloat.zero.injEq,
      UnpackedFloat.finite.injEq] at same
  · exact eq_of_fields (sign same) (by omega) (by omega)
  · exact absurd rfl number
  · exact eq_of_fields (sign same) (by omega) (by omega)
  all_goals
    obtain ⟨signs, mantissas, exponents⟩ := same
    exact eq_of_fields (sign signs) (by omega) (by omega)

/-- A mantissa and an exponent in place are told by their product. -/
theorem Stored.unique {n : ℕ} {d : ℤ} (hm : Stored m e) (hn : Stored n d)
    (same : (m * 2 ^ e : ℚ) = n * 2 ^ d) : m = n ∧ e = d := by
  by_contra apart
  have order : (e < d ∨ e = d ∧ m < n) ∨ (d < e ∨ d = e ∧ n < m) := by omega
  obtain less | less := order
  · exact (hm.size_lt hn less).ne same
  · exact (hn.size_lt hm less).ne' same

/-- A float that says a number in place unpacks to it. -/
theorem unpack_of_extent (number : x.isNaN = false) (stored : Stored m e)
    (value : extent x = m * 2 ^ e) :
    x.toModel.unpack = .finite .positive m e stored.positive := by
  have positive := stored.size_pos
  have finite : x.isFinite = true := by
    rw [isFinite_iff_extent number, value, abs_of_pos positive]
    exact stored.size_lt_edge
  obtain ⟨-, -, zero⟩ | ⟨s, n, d, pos, unpacked, stored', signed⟩ := finite_cases finite
  · rw [value] at zero
    exact absurd zero positive.ne'
  · rw [value] at signed
    cases s with
    | negative =>
      rw [Rounding.signed] at signed
      linarith [stored'.size_pos]
    | positive =>
      obtain ⟨rfl, rfl⟩ := stored.unique stored' signed
      exact unpacked

/-- The magnitude of a float in its fields. -/
theorem ofFloat_eq (x : Float) : Decimal.Binary.ofFloat x =
    if exponentField x = 0 then ⟨fractionField x, -1074⟩
      else ⟨2 ^ 52 + fractionField x, exponentField x - 1075⟩ := rfl

/-- The magnitude of a float that is neither zero nor infinite. -/
theorem ofFloat_of_unpack {pos : 0 < m} (unpacked : x.toModel.unpack = .finite s m e pos) :
    Decimal.Binary.ofFloat x = ⟨m, e⟩ := by
  rw [unpack_eq x] at unpacked
  rw [ofFloat_eq]
  split_ifs at unpacked ⊢ <;> simp only [UnpackedFloat.finite.injEq] at unpacked
  · rw [unpacked.2.1, unpacked.2.2]
  · rw [unpacked.2.1, unpacked.2.2]

theorem ofFloat_of_zero (unpacked : x.toModel.unpack = .zero s) :
    Decimal.Binary.ofFloat x = ⟨0, -1074⟩ := by
  rw [unpack_eq x] at unpacked
  rw [ofFloat_eq]
  split_ifs at unpacked ⊢
  rename_i fraction
  rw [fraction]

theorem negative_iff (x : Float) :
    Decimal.negative x = true ↔ signOf (signField x) = .negative := by
  have bit : (x.toBits >>> 63).toNat = signField x := by
    rw [UInt64.toNat_shiftRight, signField, Nat.shiftRight_eq_div_pow]
    rfl
  have zero : x.toBits >>> 63 = 0 ↔ signField x = 0 := by
    rw [← UInt64.toNat_inj, bit]
    rfl
  unfold Decimal.negative signOf
  by_cases positive : signField x = 0 <;> simp [positive, zero]

/-- What a float unpacks to has its sign. -/
theorem negative_of_unpack {u : UnpackedFloat} (unpacked : x.toModel.unpack = u)
    (signed : u = .infinity s ∨ u = .zero s ∨ ∃ m e pos, u = .finite s m e pos) :
    Decimal.negative x = true ↔ s = .negative := by
  have sign : signOf (signField x) = s := by
    rw [unpack_eq x] at unpacked
    obtain rfl | rfl | ⟨m, e, pos, rfl⟩ := signed
    · split_ifs at unpacked
      exact UnpackedFloat.infinity.inj unpacked
    · split_ifs at unpacked
      exact UnpackedFloat.zero.inj unpacked
    · split_ifs at unpacked <;> exact (UnpackedFloat.finite.inj unpacked).1
  rw [negative_iff, sign]

/-- A magnitude with the sign of a float is the float. -/
theorem eq_of_magnitude (number : x.isNaN = false)
    (sign : Decimal.negative x = true ↔ s = .negative)
    (positive : s = .positive → x.toModel.unpack = y.toModel.unpack)
    (negative : s = .negative → x.toModel.unpack = (-y).toModel.unpack) :
    (if Decimal.negative x then -y else y) = x := by
  cases s with
  | positive =>
    have plus : ¬Decimal.negative x = true := by simp [sign]
    rw [if_neg plus]
    exact (eq_of_unpack number (positive rfl)).symm
  | negative =>
    rw [if_pos (sign.2 rfl)]
    exact (eq_of_unpack number (negative rfl)).symm

end TangledGraph.Rounding
