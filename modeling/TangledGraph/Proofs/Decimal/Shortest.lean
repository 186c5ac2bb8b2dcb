import TangledGraph.Proofs.Number.Bits
import TangledGraph.Proofs.Number.Scientific

/-!
# Shortest decimals round back

The shortest decimal of a float is a point of some grid within the interval of numbers
that are rounded to the float. On the finest grid there always is one.
-/
namespace TangledGraph.Decimal

open Rounding

variable {m n : ℕ} {e p : ℤ} {q t : ℚ} {b : Binary}

/-- A number within half of a whole one, or at half of an even one, is rounded to it. -/
theorem nearestInt_eq {n : ℤ} (low : n - 1 / 2 ≤ t) (high : t ≤ n + 1 / 2)
    (half : t = n - 1 / 2 ∨ t = n + 1 / 2 → n % 2 = 0) : nearestInt t = n := by
  obtain below | above := lt_or_ge t n
  · have whole : ⌊t⌋ = n - 1 := by
      rw [Int.floor_eq_iff]
      push_cast
      constructor <;> linarith
    have part : Int.fract t = t - n + 1 := by
      rw [Int.fract, whole]
      push_cast
      ring
    unfold nearestInt
    rw [part, whole]
    split_ifs with less more
    · linarith
    · omega
    · have even := half (.inl (by linarith))
      omega
  · have whole : ⌊t⌋ = n := by
      rw [Int.floor_eq_iff]
      constructor <;> linarith
    have part : Int.fract t = t - n := by rw [Int.fract, whole]
    unfold nearestInt
    rw [part, whole]
    split_ifs with less more
    · rfl
    · linarith
    · have even := half (.inr (by linarith))
      omega

/-- The lower half of the interval, in quarters of the spacing of floats. -/
def gap (b : Binary) : ℕ := if b.significand = Nat.pow 2 52 ∧ b.exponent ≠ -1074 then 1 else 2

/-- A number in the interval of those that are rounded to a magnitude. -/
structure Near (b : Binary) (q : ℚ) : Prop where
  low : (4 * b.significand - gap b) * 2 ^ (b.exponent - 2) ≤ q
  high : q ≤ (4 * b.significand + 2) * 2 ^ (b.exponent - 2)
  odd : b.significand % 2 = 1 → (4 * b.significand - gap b) * 2 ^ (b.exponent - 2) < q ∧
    q < (4 * b.significand + 2) * 2 ^ (b.exponent - 2)

theorem quarters (e : ℤ) : (2 : ℚ) ^ e = 4 * 2 ^ (e - 2) := by
  rw [zpow_sub₀ two_ne_zero]
  norm_num
  field_simp

theorem gap_le (b : Binary) : (gap b : ℚ) ≤ 2 := by
  unfold gap
  split_ifs <;> norm_num

/-- The least number of the grade of a float, in quarters of the spacing. -/
theorem edge_quarters (e : ℤ) : (2 : ℚ) ^ (e + 52) = 2 ^ 52 * (4 * 2 ^ (e - 2)) := by
  rw [zpow_add₀ two_ne_zero, quarters e]
  norm_num
  ring

/-- The lower half of the interval is half of the spacing at most. -/
theorem half_below (m : ℕ) (e : ℤ) :
    (4 * m - 2 : ℚ) * 2 ^ (e - 2) ≤ (4 * m - gap ⟨m, e⟩) * 2 ^ (e - 2) := by
  gcongr
  exact gap_le _

/-- Where the exponent of the float is that of the numbers about it, half a unit on both
sides belongs to it. -/
theorem Near.nearestSize_of_grade (near : Near ⟨m, e⟩ q) (stored : Stored m e)
    (exponent : grade q = e) : nearestSize q = m * 2 ^ e := by
  have spread := half_below m e
  obtain ⟨low, high, odd⟩ := near
  dsimp only at low high odd
  have unit := quarters e
  have positive : (0 : ℚ) < 2 ^ (e - 2) := by positivity
  have mantissa : nearestInt (q / 2 ^ e) = m := by
    rw [unit]
    refine nearestInt_eq ?_ ?_ fun half => ?_
    · rw [le_div_iff₀ (by positivity), Int.cast_natCast]
      linarith
    · rw [div_le_iff₀ (by positivity), Int.cast_natCast]
      linarith
    · rw [div_eq_iff (by positivity), div_eq_iff (by positivity), Int.cast_natCast] at half
      by_contra uneven
      obtain ⟨above, below⟩ := odd (by omega)
      obtain half | half := half <;> linarith
  rw [nearestSize, exponent, mantissa, Int.cast_natCast]
  exact min_eq_left stored.size_lt_edge.le

/-- Only the interval of a power of two goes below its grade. -/
theorem Near.mantissa_of_carry (near : Near ⟨m, e⟩ q) (stored : Stored m e)
    (normal : e ≠ -1074) (below : q < 2 ^ (e + 52)) : m = 2 ^ 52 := by
  have low := (half_below m e).trans near.low
  have positive : (0 : ℚ) < 2 ^ (e - 2) := by positivity
  have least : 2 ^ 52 ≤ m := stored.normal.resolve_right normal
  by_contra other
  have more : (2 ^ 52 : ℚ) + 1 ≤ m := by
    have : 2 ^ 52 + 1 ≤ m := by omega
    exact_mod_cast this
  rw [edge_quarters] at below
  nlinarith

/-- Numbers just below a power of two are rounded to it at the exponent below. -/
theorem Near.nearestSize_of_carry (near : Near ⟨m, e⟩ q) (stored : Stored m e)
    (normal : e ≠ -1074) (below : q < 2 ^ (e + 52)) : nearestSize q = m * 2 ^ e := by
  have unit := quarters e
  have half : (2 : ℚ) ^ (e - 1) = 2 * 2 ^ (e - 2) := by
    rw [show e - 1 = e - 2 + 1 by ring, zpow_add_one₀ two_ne_zero]
    ring
  have top := edge_quarters e
  have positive : (0 : ℚ) < 2 ^ (e - 2) := by positivity
  obtain rfl := near.mantissa_of_carry stored normal below
  have low := near.low
  dsimp only at low
  have quarter : gap ⟨2 ^ 52, e⟩ = 1 := if_pos ⟨rfl, normal⟩
  rw [quarter] at low
  push_cast at low
  have exponent : grade q = e - 1 := by
    have := stored.low
    refine grade_eq (by omega) (.inl ?_) ?_
    · rw [zpow_add₀ two_ne_zero, half]
      norm_num
      linarith
    · rw [show e - 1 + 53 = e + 52 by ring]
      exact below
  have mantissa : nearestInt (q / 2 ^ (e - 1)) = 2 * 2 ^ 52 := by
    rw [half]
    refine nearestInt_eq ?_ ?_ fun _ => by decide
    · rw [le_div_iff₀ (by positivity)]
      push_cast
      linarith
    · rw [div_le_iff₀ (by positivity)]
      push_cast
      linarith
  rw [nearestSize, exponent, mantissa]
  have value : ((2 * 2 ^ 52 : ℤ) : ℚ) * 2 ^ (e - 1) = ((2 ^ 52 : ℕ) : ℚ) * 2 ^ e := by
    rw [half, unit]
    push_cast
    ring
  rw [value]
  exact min_eq_left stored.size_lt_edge.le

/-- A number in the interval of a float is rounded to it. -/
theorem Near.nearestSize_eq (near : Near ⟨m, e⟩ q) (stored : Stored m e) :
    nearestSize q = m * 2 ^ e := by
  have unit := quarters e
  have positive : (0 : ℚ) < 2 ^ (e - 2) := by positivity
  have small : (m : ℚ) + 1 ≤ 2 ^ 53 := by exact_mod_cast stored.small
  have some : (1 : ℚ) ≤ m := by exact_mod_cast stored.positive
  have low := near.low
  have high := near.high
  have spread := gap_le ⟨m, e⟩
  dsimp only at low high
  have most : q < 2 ^ (e + 53) := by
    rw [zpow_add₀ two_ne_zero, unit]
    norm_num at small ⊢
    nlinarith
  have pos : 0 < q := by nlinarith
  by_cases least : e = -1074
  · exact near.nearestSize_of_grade stored (grade_eq stored.low (.inr ⟨least, pos⟩) most)
  obtain below | above := lt_or_ge q (2 ^ (e + 52))
  · exact near.nearestSize_of_carry stored least below
  · exact near.nearestSize_of_grade stored (grade_eq stored.low (.inl above) most)

theorem denominator_eq (e p : ℤ) : denominator e p = 2 ^ (-e).toNat * 10 ^ p.toNat := rfl

theorem denominator_pos (e p : ℤ) : (0 : ℚ) < denominator e p := by
  rw [denominator_eq]
  positivity

/-- A numerator is a multiple of a power of two in units of a grid. -/
theorem numerator_eq (n : ℕ) (e p : ℤ) :
    (numerator n e p : ℚ) = n * 2 ^ e / 10 ^ p * denominator e p := by
  have unfolded : numerator n e p = n * 2 ^ e.toNat * 10 ^ (-p).toNat := rfl
  have ten : (10 : ℚ) ≠ 0 := by norm_num
  have grid := zpow_mul_toNat ten (-p)
  rw [neg_neg, zpow_neg] at grid
  rw [unfolded, denominator_eq]
  push_cast
  rw [← zpow_mul_toNat two_ne_zero, ← grid]
  field_simp

theorem le_numerator_iff {v : ℕ} :
    n * denominator e p ≤ numerator v e p ↔ (n : ℚ) * 10 ^ p ≤ v * 2 ^ e := by
  rw [← Nat.cast_le (α := ℚ), Nat.cast_mul, numerator_eq,
    mul_le_mul_iff_left₀ (denominator_pos e p), le_div_iff₀ (by positivity)]

theorem numerator_le_iff {v : ℕ} :
    numerator v e p ≤ n * denominator e p ↔ (v : ℚ) * 2 ^ e ≤ n * 10 ^ p := by
  rw [← Nat.cast_le (α := ℚ), Nat.cast_mul, numerator_eq,
    mul_le_mul_iff_left₀ (denominator_pos e p), div_le_iff₀ (by positivity)]

/-- The condition on the points of a grid. -/
def Inside (b : Binary) (p : ℤ) (point : ℕ) : Prop :=
  let unit := denominator (b.exponent - 2) p
  let low := numerator (4 * b.significand - gap b) (b.exponent - 2) p
  let high := numerator (4 * b.significand + 2) (b.exponent - 2) p
  if b.significand % 2 = 0 then low ≤ point * unit ∧ point * unit ≤ high
  else low < point * unit ∧ point * unit < high

/-- A point inside is in the interval. -/
theorem Inside.near {point : ℕ} (inside : Inside b p point) (positive : 0 < b.significand) :
    Near b (point * 10 ^ p) := by
  have lower : ((4 * b.significand - gap b : ℕ) : ℚ) = 4 * b.significand - gap b := by
    have := gap_le b
    have : gap b ≤ 2 := by exact_mod_cast this
    push_cast [Nat.cast_sub (show gap b ≤ 4 * b.significand by omega)]
    ring
  have upper : ((4 * b.significand + 2 : ℕ) : ℚ) = 4 * b.significand + 2 := by push_cast; ring
  unfold Inside at inside
  dsimp only at inside
  split_ifs at inside with even
  · rw [numerator_le_iff, le_numerator_iff, lower, upper] at inside
    exact ⟨inside.1, inside.2, fun odd => by omega⟩
  · rw [← not_le, ← not_le, le_numerator_iff, numerator_le_iff, lower, upper, not_le, not_le]
      at inside
    exact ⟨inside.1.le, inside.2.le, fun _ => inside⟩

/-- The point of a grid nearest to a magnitude, of two the upper one. -/
def nearerPoint (b : Binary) (p : ℤ) : ℕ :=
  let unit := denominator (b.exponent - 2) p
  let value := numerator (4 * b.significand) (b.exponent - 2) p
  if 2 * value < (2 * (value / unit) + 1) * unit then value / unit else value / unit + 1

theorem gridPoint?_cases (b : Binary) (p : ℤ) :
    (∃ point, gridPoint? b p = some point ∧ Inside b p point) ∨
      gridPoint? b p = none ∧ ¬Inside b p (nearerPoint b p) := by
  by_cases near : Inside b p (nearerPoint b p)
  · exact .inl ⟨nearerPoint b p, if_pos near, near⟩
  · obtain ⟨farther, eq⟩ : ∃ farther, 2 * (numerator (4 * b.significand) (b.exponent - 2) p /
        denominator (b.exponent - 2) p) + 1 - nearerPoint b p = farther := ⟨_, rfl⟩
    by_cases far : Inside b p farther
    · exact .inl ⟨farther, eq ▸ (if_neg near).trans (if_pos (eq ▸ far)), far⟩
    · exact .inr ⟨(if_neg near).trans (if_neg (eq ▸ far)), near⟩

/-- The nearest point is at most half of the spacing away. -/
theorem nearerPoint_bounds (b : Binary) (p : ℤ) :
    let unit := denominator (b.exponent - 2) p
    let value := numerator (4 * b.significand) (b.exponent - 2) p
    2 * value ≤ 2 * (nearerPoint b p * unit) + unit ∧
      2 * (nearerPoint b p * unit) ≤ 2 * value + unit := by
  intro unit value
  have positive : 0 < unit := by exact_mod_cast denominator_pos (b.exponent - 2) p
  have floor := Nat.div_mul_le_self value unit
  have next := Nat.lt_mul_of_div_lt (Nat.lt_succ_self (value / unit)) positive
  have split : nearerPoint b p =
      if 2 * value < (2 * (value / unit) + 1) * unit then value / unit else value / unit + 1 := rfl
  have double : (2 * (value / unit) + 1) * unit = 2 * (value / unit * unit) + unit := by ring
  have step : (value / unit + 1) * unit = value / unit * unit + unit := by ring
  rw [Nat.succ_eq_add_one, step] at next
  rw [split, double]
  split_ifs with less
  · omega
  · rw [step]
    omega

theorem numerator_mul (n : ℕ) (e p : ℤ) : numerator n e p = n * numerator 1 e p := by
  unfold numerator
  ring

/-- The finest grid has points closer together than floats are. -/
theorem finest_spacing (low : -1074 ≤ e) :
    denominator (e - 2) finestGrid < 2 * numerator 1 (e - 2) finestGrid := by
  have units : denominator (e - 2) finestGrid = 2 ^ (2 - e).toNat := by
    rw [denominator_eq, finestGrid, neg_sub]
    exact Nat.mul_one _
  have least : 2 * Nat.pow 10 (-finestGrid).toNat ≤ 2 * numerator 1 (e - 2) finestGrid := by
    have positive : 0 < Nat.pow 2 (e - 2).toNat := Nat.pow_pos two_pos
    rw [numerator]
    exact Nat.mul_le_mul_left 2 (Nat.le_mul_of_pos_left _ (Nat.mul_pos Nat.one_pos positive))
  calc denominator (e - 2) finestGrid = 2 ^ (2 - e).toNat := units
    _ ≤ 2 ^ 1076 := Nat.pow_le_pow_right two_pos (by omega)
    _ < 2 * Nat.pow 10 (-finestGrid).toNat := by decide +kernel
    _ ≤ 2 * numerator 1 (e - 2) finestGrid := least

theorem inside_finest (positive : 0 < b.significand) (low : -1074 ≤ b.exponent) :
    Inside b finestGrid (nearerPoint b finestGrid) := by
  have spacing := finest_spacing low
  obtain ⟨below, above⟩ := nearerPoint_bounds b finestGrid
  have gaps : gap b = 1 ∨ gap b = 2 := by
    unfold gap
    split_ifs <;> simp
  unfold Inside
  dsimp only
  rw [numerator_mul] at below above
  rw [numerator_mul (4 * b.significand - gap b), numerator_mul (4 * b.significand + 2)]
  generalize numerator 1 (b.exponent - 2) finestGrid = w at *
  generalize denominator (b.exponent - 2) finestGrid = unit at *
  generalize nearerPoint b finestGrid * unit = point at *
  have lower : (4 * b.significand - gap b) * w + gap b * w = 4 * b.significand * w := by
    rw [← Nat.add_mul]
    congr 1
    omega
  have upper : (4 * b.significand + 2) * w = 4 * b.significand * w + 2 * w := by ring
  have inside : (4 * b.significand - gap b) * w < point ∧ point < (4 * b.significand + 2) * w := by
    obtain gap | gap := gaps <;> rw [gap] at lower ⊢ <;> omega
  split_ifs
  · exact ⟨inside.1.le, inside.2.le⟩
  · exact inside

/-- The search ends on a grid with a point in the interval. -/
theorem coarsest_inside (positive : 0 < b.significand) (low : -1074 ≤ b.exponent) (steps : ℕ) :
    Inside b (coarsest b steps).exponent (coarsest b steps).digits ∧
      -324 ≤ (coarsest b steps).exponent ∧ (coarsest b steps).exponent ≤ -324 + steps := by
  induction steps with
  | zero =>
    obtain ⟨point, found, inside⟩ | ⟨-, outside⟩ := gridPoint?_cases b finestGrid
    · have last : coarsest b 0 = ⟨(gridPoint? b finestGrid).getD 0, finestGrid⟩ := rfl
      rw [last, found]
      exact ⟨inside, le_rfl, le_rfl⟩
    · exact absurd (inside_finest positive low) outside
  | succ steps ih =>
    obtain ⟨point, found, inside⟩ | ⟨missing, -⟩ :=
      gridPoint?_cases b (finestGrid + (steps + 1 : ℕ))
    · have here : coarsest b (steps + 1) = ⟨point, finestGrid + (steps + 1 : ℕ)⟩ := by
        rw [coarsest, found]
      rw [here]
      refine ⟨inside, ?_, le_rfl⟩
      unfold finestGrid
      dsimp only
      omega
    · have finer : coarsest b (steps + 1) = coarsest b steps := by
        rw [coarsest, missing]
      rw [finer]
      exact ⟨ih.1, ih.2.1, by omega⟩

/-- What a decimal stands for. -/
def value (d : Decimal) : ℚ := d.digits * 10 ^ d.exponent

/-- The shortest decimal of a float is rounded to it. -/
theorem shortest_rounds {x : Float} {s : Float.Model.UnpackedFloat.Sign} {pos : 0 < m}
    (unpacked : x.toModel.unpack = .finite s m e pos) :
    nearestSize (value (shortest x)) = m * 2 ^ e ∧ -324 ≤ (shortest x).exponent := by
  have stored := stored_of_unpack unpacked
  have magnitude := ofFloat_of_unpack unpacked
  have found : shortest x = coarsest ⟨m, e⟩ 633 := by
    rw [shortest, magnitude]
    exact if_neg pos.ne'
  obtain ⟨inside, least, -⟩ := coarsest_inside (b := ⟨m, e⟩) pos stored.low 633
  rw [found]
  exact ⟨(inside.near pos).nearestSize_eq stored, least⟩

end TangledGraph.Decimal
