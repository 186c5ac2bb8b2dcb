import TangledGraph.Training.Generation
import TangledGraph.Proofs.Settings.Valid

/-!
# How many a gap condemns

A selection condemns a share of the roots, rounded down. The share is less than
one, and so are the roots that it condemns fewer than there are, whatever the
roundings on the way.
-/
namespace TangledGraph

open Float.Model Float.Model.UnpackedFloat Rounding

theorem probability_le {m : Nat} {e : Int} (small : m < 2 ^ 53) (high : e ≤ -53) :
    (m : ℚ) * 2 ^ e * 2 ^ 53 ≤ 2 ^ 53 - 1 := by
  have unit : (2 : ℚ) ^ e * 2 ^ 53 ≤ 1 := by
    rw [← zpow_natCast, ← zpow_add₀ two_ne_zero]
    exact zpow_le_one_of_nonpos₀ one_le_two (by push_cast; omega)
  have whole : (m : ℚ) ≤ 2 ^ 53 - 1 := by
    have : (m : ℚ) + 1 ≤ 2 ^ 53 := by exact_mod_cast small
    linarith
  have scaled : (m : ℚ) * (2 ^ e * 2 ^ 53) ≤ m * 1 :=
    mul_le_mul_of_nonneg_left unit (Nat.cast_nonneg m)
  rw [mul_assoc]
  linarith

-- A count lies above `N - 1` units of size `2 ^ j`, and its share is rounded to `r` units of
-- size `2 ^ q`. The share cannot reach the count in the place of the count, nor in a finer one.
section Places

variable {n N r : Nat} {j q : Int} {g : ℚ}

/-- In the finest place of all there is no room for one. -/
theorem lt_one_of_least (size : (r : ℚ) ≤ 2 ^ 53) : (r : ℚ) * 2 ^ (-1074 : Int) < 1 := by
  have tiny : (2 : ℚ) ^ 53 * 2 ^ (-1074 : Int) < 1 := by
    rw [← zpow_natCast, ← zpow_add₀ two_ne_zero]
    exact zpow_lt_one_of_neg₀ one_lt_two (by decide)
  calc (r : ℚ) * 2 ^ (-1074 : Int) ≤ 2 ^ 53 * 2 ^ (-1074 : Int) := by gcongr
    _ < 1 := tiny

/-- In the place of the count, fewer units are at least one unit fewer. -/
theorem lt_of_same_place (below : ((N : ℚ) - 1) * 2 ^ j < n) (top : 2 ^ 52 < N)
    (share : g * 2 ^ 53 ≤ 2 ^ 53 - 1) (near : (2 * (r : ℚ) - 1) * 2 ^ j ≤ 2 * (N * 2 ^ j) * g) :
    (r : ℚ) * 2 ^ j < n := by
  have unit : (0 : ℚ) < 2 ^ j := by positivity
  have top : (2 : ℚ) ^ 52 < N := by exact_mod_cast top
  have near : 2 * (r : ℚ) - 1 ≤ 2 * N * g := by
    refine le_of_mul_le_mul_right ?_ unit
    linarith
  have less : (r : ℚ) < N := by nlinarith
  have fewer : (r : ℚ) ≤ N - 1 := by
    have : (r : ℚ) + 1 ≤ N := by exact_mod_cast (Nat.cast_lt.1 less)
    linarith
  exact lt_of_le_of_lt (mul_le_mul_of_nonneg_right fewer unit.le) below

/-- In the next finer place, the largest number is below the count, unless the count is
the least of its place, and then the share is smaller than that. -/
theorem lt_of_next_place (size : (r : ℚ) ≤ 2 ^ 53) (normal : 2 ^ 52 ≤ N)
    (below : ((N : ℚ) - 1) * 2 ^ j < n)
    (carried : N = 2 ^ 52 → (2 * (N : ℚ) - 1) * 2 ^ j < 2 * n) (next : q = j - 1)
    (share : g * 2 ^ 53 ≤ 2 ^ 53 - 1) (near : (2 * (r : ℚ) - 1) * 2 ^ q ≤ 2 * (N * 2 ^ j) * g) :
    (r : ℚ) * 2 ^ q < n := by
  have half : (2 : ℚ) ^ q * 2 = 2 ^ j := by
    rw [next, zpow_sub_one₀ two_ne_zero]
    ring
  have unit : (0 : ℚ) < 2 ^ q := by positivity
  rw [← half] at near below carried
  by_cases least : N = 2 ^ 52
  · have near : 2 * (r : ℚ) - 1 ≤ 4 * N * g := by
      refine le_of_mul_le_mul_right ?_ unit
      linarith
    have less : (r : ℚ) < 2 ^ 53 := by
      rw [least] at near
      push_cast at near
      linarith
    have fewer : (r : ℚ) + 1 ≤ 2 ^ 53 := by
      have less : r < 2 ^ 53 := by exact_mod_cast less
      exact_mod_cast less
    have carried := carried least
    rw [least] at carried
    push_cast at carried
    have := mul_le_mul_of_nonneg_right fewer unit.le
    linarith
  · have more : (2 : ℚ) ^ 52 + 1 ≤ N := by
      have more : 2 ^ 52 < N := by omega
      exact_mod_cast more
    have := mul_le_mul_of_nonneg_right size unit.le
    have := mul_le_mul_of_nonneg_right more unit.le
    linarith

/-- Two places finer, not even the largest number gets near the count. -/
theorem lt_of_finer_place (size : (r : ℚ) ≤ 2 ^ 53) (normal : 2 ^ 52 ≤ N)
    (below : ((N : ℚ) - 1) * 2 ^ j < n) (far : q ≤ j - 2) : (r : ℚ) * 2 ^ q < n := by
  have lower : (2 : ℚ) ^ 52 ≤ N := by exact_mod_cast normal
  have quarter : (2 : ℚ) ^ q * 4 ≤ 2 ^ j := by
    have two : (4 : ℚ) = 2 ^ (2 : Int) := by norm_num
    rw [two, ← zpow_add₀ two_ne_zero]
    exact zpow_le_zpow_right₀ one_le_two (by omega)
  have := mul_le_mul_of_nonneg_right size (show (0 : ℚ) ≤ 2 ^ q by positivity)
  have := mul_le_mul_of_nonneg_right lower (show (0 : ℚ) ≤ 2 ^ j by positivity)
  linarith

/-- A product with a probability is rounded to a number in place below the other
factor. -/
theorem rounded_lt (pos : 0 < n) (size : r ≤ 2 ^ 53) (normal : 2 ^ 52 ≤ N)
    (below : ((N : ℚ) - 1) * 2 ^ j < n)
    (carried : N = 2 ^ 52 → (2 * (N : ℚ) - 1) * 2 ^ j < 2 * n)
    (least : q ≠ -1074 → q ≤ j) (top : q = j → 2 ^ 52 < N)
    (share : g * 2 ^ 53 ≤ 2 ^ 53 - 1) (near : (2 * (r : ℚ) - 1) * 2 ^ q ≤ 2 * (N * 2 ^ j) * g) :
    (r : ℚ) * 2 ^ q < n := by
  have size : (r : ℚ) ≤ 2 ^ 53 := by exact_mod_cast size
  by_cases finest : q = -1074
  · have one : (1 : ℚ) ≤ n := by exact_mod_cast pos
    rw [finest]
    exact (lt_one_of_least size).trans_le one
  · have within := least finest
    obtain rfl | next | far : q = j ∨ q = j - 1 ∨ q ≤ j - 2 := by omega
    · exact lt_of_same_place below (top rfl) share near
    · exact lt_of_next_place size normal below carried next share near
    · exact lt_of_finer_place size normal below far

end Places

/-- A share of a count, rounded, is below the count. -/
theorem mul_ofNat_lt {n : Nat} {x : Float} {m : Nat} {e : Int} (pos : 0 < n) (size : n < 2 ^ 64)
    (h : IsPositive x m e) (small : m < 2 ^ 53) (low : -1074 ≤ e) (high : e ≤ -53) :
    (Float.ofNat n * x).toUInt64.toNat < n := by
  obtain ⟨N, j, count, normal, top, least, most, below, carried⟩ := below_ofNat pos size
  obtain ⟨posN, -⟩ := id count
  obtain ⟨posm, -⟩ := id h
  have product : N * m ≠ 0 := (Nat.mul_pos posN posm).ne'
  have long : 52 ≤ (N * m).log2 :=
    (Nat.le_log2 product).2 (normal.trans (Nat.le_mul_of_pos_right _ posm))
  have short : (N * m).log2 < 106 := by
    rw [Nat.log2_lt product]
    calc N * m < 2 ^ 53 * 2 ^ 53 := Nat.mul_lt_mul'' top small
      _ = 2 ^ 106 := by rw [← Nat.pow_add]
  have inPlace : place (N * m) (j + e) = max ((N * m).log2 - 52 + (j + e)) (-1074) := rfl
  obtain ⟨r, size, -, near, rounded⟩ := count.mul h (by omega) (by omega)
  generalize place (N * m) (j + e) = q at inPlace near rounded
  have near : (2 * (r : ℚ) - 1) * 2 ^ q ≤ 2 * (N * 2 ^ j) * (m * 2 ^ e) := by
    have unit : (2 : ℚ) ^ (q - (j + e)).toNat * 2 ^ (j + e) = 2 ^ q := by
      rw [← zpow_natCast, ← zpow_add₀ two_ne_zero]
      congr 1
      omega
    have near : 2 * (r : ℚ) * 2 ^ (q - (j + e)).toNat ≤ 2 * (N * m) + 2 ^ (q - (j + e)).toNat := by
      exact_mod_cast near
    have power : (2 : ℚ) ^ (j + e) = 2 ^ j * 2 ^ e := zpow_add₀ two_ne_zero j e
    calc (2 * (r : ℚ) - 1) * 2 ^ q
        = (2 * r * 2 ^ (q - (j + e)).toNat - 2 ^ (q - (j + e)).toNat) * 2 ^ (j + e) := by
          rw [← unit]; ring
      _ ≤ 2 * ((N : ℚ) * m) * 2 ^ (j + e) := by gcongr; linarith
      _ = 2 * (N * 2 ^ j) * (m * 2 ^ e) := by rw [power]; ring
  have value := rounded_lt pos size normal below carried (by omega) ?_
    (probability_le small high) near
  · exact_mod_cast rounded.toUInt64_le.trans_lt value
  · intro same
    by_contra least
    have exact : N = 2 ^ 52 := by omega
    have short : (N * m).log2 < 105 := by
      rw [Nat.log2_lt product, exact]
      calc 2 ^ 52 * m < 2 ^ 52 * 2 ^ 53 := Nat.mul_lt_mul_of_pos_left small (by decide)
        _ = 2 ^ 105 := by rw [← Nat.pow_add]
    omega

theorem mul_toModel (x y : Float) : (x * y).toModel = Float.Model.pack
    (UnpackedFloat.mul Format.binary64 x.toModel.unpack y.toModel.unpack) := rfl

namespace Selection

/-- A selection condemns fewer roots than there are. -/
theorem condemned_lt {n : Nat} {gap : Float} (probability : isProbability gap = true)
    (pos : 0 < n) : condemned n gap < n := by
  unfold condemned
  by_cases size : n < 2 ^ 64
  · obtain ⟨s, zero⟩ | ⟨m, e, h, small, low, high⟩ := unpack_of_isProbability probability
    · obtain ⟨N, j, ⟨positive, count⟩, -⟩ := below_ofNat pos size
      have product := mul_toModel (Float.ofNat n) gap
      rw [count, zero] at product
      rw [toUInt64_of_zero (product ▸ unpack_pack_zero _)]
      exact pos
    · exact mul_ofNat_lt pos size h small low high
  · exact (UInt64.toNat_lt _).trans_le (Nat.not_lt.1 size)

theorem condemned_le {n : Nat} {gap : Float} (probability : isProbability gap = true) :
    condemned n gap ≤ n := by
  obtain rfl | pos := Nat.eq_zero_or_pos n
  · have count : (Float.ofNat 0).toModel.unpack = .zero .positive := rfl
    have product := mul_toModel (Float.ofNat 0) gap
    unfold condemned
    obtain ⟨s, zero⟩ | ⟨m, e, ⟨_, h⟩, -⟩ := unpack_of_isProbability probability
    · rw [count, zero] at product
      exact (toUInt64_of_zero (product ▸ unpack_pack_zero _)).le
    · rw [count, h] at product
      exact (toUInt64_of_zero (product ▸ unpack_pack_zero _)).le
  · exact (condemned_lt probability pos).le

end Selection

end TangledGraph
