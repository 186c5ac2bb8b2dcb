import Mathlib

/-!
# The nearest number

A number is rounded to a mantissa of 53 bits at the exponent that its size calls for,
a half to the even neighbour, and no further than where the exponents end. So
rounding keeps the order of numbers, whatever their exponents are, and what has such
a mantissa is rounded to itself.
-/
namespace TangledGraph.Rounding

/-- The whole number nearest to a rational one, and of two the even one. -/
def nearestInt (t : ℚ) : ℤ :=
  if Int.fract t < 1 / 2 then ⌊t⌋
  else if 1 / 2 < Int.fract t then ⌊t⌋ + 1
  else ⌊t⌋ + ⌊t⌋ % 2

theorem floor_le_nearestInt (t : ℚ) : ⌊t⌋ ≤ nearestInt t := by
  unfold nearestInt
  split_ifs <;> omega

theorem nearestInt_le (t : ℚ) : nearestInt t ≤ ⌊t⌋ + 1 := by
  unfold nearestInt
  split_ifs <;> omega

@[simp] theorem nearestInt_intCast (n : ℤ) : nearestInt n = n := by
  simp [nearestInt]

@[simp] theorem nearestInt_zero : nearestInt 0 = 0 := nearestInt_intCast 0

theorem nearestInt_mono : Monotone nearestInt := by
  intro t u le
  obtain same | less := (Int.floor_le_floor le).eq_or_lt
  · have fract : Int.fract t ≤ Int.fract u := by
      rw [Int.fract, Int.fract, same]
      exact sub_le_sub_right le _
    unfold nearestInt
    rw [same]
    split_ifs <;> first | omega | (exfalso; linarith)
  · have step : ⌊t⌋ + 1 ≤ ⌊u⌋ := less
    exact (nearestInt_le t).trans (step.trans (floor_le_nearestInt u))

theorem nearestInt_nonneg {t : ℚ} (h : 0 ≤ t) : 0 ≤ nearestInt t :=
  (Int.floor_nonneg.2 h).trans (floor_le_nearestInt t)

/-- The exponent of the floats about a positive number. -/
def grade (q : ℚ) : ℤ := max (Int.log 2 q - 52) (-1074)

/-- Where the numbers with the greatest exponent end. -/
def edge : ℚ := 2 ^ (1024 : ℤ)

theorem edge_pos : 0 < edge := by
  unfold edge
  positivity

theorem two_pow_lt_edge {n : ℕ} (h : n < 1024) : 2 ^ n < edge := by
  unfold edge
  rw [← zpow_natCast]
  exact zpow_lt_zpow_right₀ (by norm_num) (by exact_mod_cast h)

theorem one_lt_edge : 1 < edge := two_pow_lt_edge (n := 0) (by decide)

/-- A number that is not negative, rounded. -/
def nearestSize (q : ℚ) : ℚ := min (nearestInt (q / 2 ^ grade q) * 2 ^ grade q) edge

/-- A number, rounded. -/
def nearest (q : ℚ) : ℚ := if 0 ≤ q then nearestSize q else -nearestSize (-q)

theorem nearestSize_nonneg {q : ℚ} (h : 0 ≤ q) : 0 ≤ nearestSize q := by
  have whole : (0 : ℚ) ≤ nearestInt (q / 2 ^ grade q) := by
    exact_mod_cast nearestInt_nonneg (by positivity)
  exact le_min (by positivity) edge_pos.le

@[simp] theorem nearestSize_zero : nearestSize 0 = 0 := by
  simp [nearestSize, edge_pos.le]

@[simp] theorem nearest_zero : nearest 0 = 0 := by
  simp [nearest]

theorem lt_two_zpow_grade (q : ℚ) : q < 2 ^ (grade q + 53) := by
  have upper := Int.lt_zpow_succ_log_self (b := 2) (by decide) q
  refine upper.trans_le ?_
  exact zpow_le_zpow_right₀ (by norm_num) (by unfold grade; omega)

theorem two_zpow_grade_le {q : ℚ} (h : 0 < q) (above : -1074 < grade q) :
    2 ^ (grade q + 52) ≤ q := by
  have lower := Int.zpow_log_le_self (b := 2) (by decide) h
  have exponent : grade q + 52 = Int.log 2 q := by unfold grade at above ⊢; omega
  rw [exponent]
  exact lower

/-- A mantissa has at most 53 bits before it is carried. -/
theorem nearestInt_le_of_grade (q : ℚ) : nearestInt (q / 2 ^ grade q) ≤ 2 ^ 53 := by
  have below : q / 2 ^ grade q ≤ (2 ^ 53 : ℤ) := by
    rw [div_le_iff₀ (by positivity)]
    have := lt_two_zpow_grade q
    rw [zpow_add₀ two_ne_zero] at this
    push_cast
    linarith
  exact (nearestInt_mono below).trans_eq (nearestInt_intCast _)

/-- Above the least exponent a mantissa has 53 bits or more. -/
theorem le_nearestInt_of_grade {q : ℚ} (pos : 0 < q) (above : -1074 < grade q) :
    2 ^ 52 ≤ nearestInt (q / 2 ^ grade q) := by
  have reached : ((2 ^ 52 : ℤ) : ℚ) ≤ q / 2 ^ grade q := by
    rw [le_div_iff₀ (by positivity)]
    have := two_zpow_grade_le pos above
    rw [zpow_add₀ two_ne_zero] at this
    push_cast
    linarith
  exact (nearestInt_intCast _).symm.trans_le (nearestInt_mono reached)

theorem nearestSize_mono {q r : ℚ} (nonneg : 0 ≤ q) (le : q ≤ r) :
    nearestSize q ≤ nearestSize r := by
  obtain rfl | pos := nonneg.eq_or_lt
  · rw [nearestSize_zero]
    exact nearestSize_nonneg le
  refine min_le_min_right _ ?_
  have ordered : grade q ≤ grade r := by
    have := Int.log_mono_right (b := 2) pos le
    unfold grade
    omega
  obtain same | less := ordered.eq_or_lt
  · rw [same]
    refine mul_le_mul_of_nonneg_right ?_ (by positivity)
    exact_mod_cast nearestInt_mono (div_le_div_of_nonneg_right le (by positivity))
  · have above : -1074 < grade r := lt_of_le_of_lt (le_max_right _ _) less
    have low : (nearestInt (q / 2 ^ grade q) : ℚ) ≤ 2 ^ 53 := by
      exact_mod_cast nearestInt_le_of_grade q
    have high : (2 ^ 52 : ℚ) ≤ nearestInt (r / 2 ^ grade r) := by
      exact_mod_cast le_nearestInt_of_grade (pos.trans_le le) above
    calc (nearestInt (q / 2 ^ grade q) : ℚ) * 2 ^ grade q ≤ 2 ^ 53 * 2 ^ grade q := by gcongr
      _ = 2 ^ 52 * 2 ^ (grade q + 1) := by rw [zpow_add_one₀ two_ne_zero]; ring
      _ ≤ 2 ^ 52 * 2 ^ grade r := by
        gcongr
        · norm_num
        · exact less
      _ ≤ nearestInt (r / 2 ^ grade r) * 2 ^ grade r := by gcongr

theorem nearest_mono : Monotone nearest := by
  intro q r le
  unfold nearest
  split_ifs with hq hr hr
  · exact nearestSize_mono hq le
  · exact absurd (hq.trans le) hr
  · have := nearestSize_nonneg (q := -q) (by linarith)
    have := nearestSize_nonneg hr
    linarith
  · exact neg_le_neg (nearestSize_mono (by linarith) (by linarith))

/-- The mantissa and the exponent of a stored number. -/
structure Stored (m : ℕ) (e : ℤ) : Prop where
  positive : 0 < m
  small : m < 2 ^ 53
  low : -1074 ≤ e
  high : e ≤ 971
  normal : 2 ^ 52 ≤ m ∨ e = -1074

theorem grade_eq {q : ℚ} {e : ℤ} (low : -1074 ≤ e) (least : 2 ^ (e + 52) ≤ q ∨ e = -1074 ∧ 0 < q)
    (most : q < 2 ^ (e + 53)) : grade q = e := by
  have pos : 0 < q := by
    obtain least | ⟨-, pos⟩ := least
    · exact lt_of_lt_of_le (by positivity) least
    · exact pos
  have below : Int.log 2 q < e + 53 := (Int.lt_zpow_iff_log_lt (by decide) pos).1 (mod_cast most)
  unfold grade
  obtain least | ⟨rfl, -⟩ := least
  · have above : e + 52 ≤ Int.log 2 q := (Int.zpow_le_iff_le_log (by decide) pos).1 (mod_cast least)
    omega
  · omega

namespace Stored

variable {m n : ℕ} {d e : ℤ}

theorem size_pos (h : Stored m d) : (0 : ℚ) < m * 2 ^ d := by
  have := h.positive
  positivity

theorem size_lt_edge (h : Stored m d) : (m * 2 ^ d : ℚ) < edge := by
  calc (m : ℚ) * 2 ^ d < 2 ^ 53 * 2 ^ d := by
        gcongr
        exact_mod_cast h.small
    _ ≤ 2 ^ 53 * 2 ^ (971 : ℤ) := by
        gcongr
        · norm_num
        · exact h.high
    _ = edge := by
        rw [edge, ← zpow_natCast, ← zpow_add₀ two_ne_zero]
        rfl

/-- The exponents decide before the mantissas. -/
theorem size_lt (hm : Stored m d) (hn : Stored n e) (less : d < e ∨ d = e ∧ m < n) :
    (m * 2 ^ d : ℚ) < n * 2 ^ e := by
  obtain less | ⟨rfl, less⟩ := less
  · have normal : 2 ^ 52 ≤ n := hn.normal.resolve_right (hm.low.trans_lt less).ne'
    calc (m : ℚ) * 2 ^ d < 2 ^ 53 * 2 ^ d := by
          gcongr
          exact_mod_cast hm.small
      _ = 2 ^ 52 * 2 ^ (d + 1) := by rw [zpow_add_one₀ two_ne_zero]; ring
      _ ≤ n * 2 ^ e := by
          gcongr
          · exact_mod_cast normal
          · norm_num
          · exact less
  · gcongr

/-- What is stored is its own nearest number. -/
theorem nearestSize_eq (h : Stored m d) :
    nearestSize (m * 2 ^ d) = m * 2 ^ d := by
  have unit : (0 : ℚ) < 2 ^ d := by positivity
  have exponent : grade (m * 2 ^ d) = d := by
    refine grade_eq h.low ?_ ?_
    · obtain normal | least := h.normal
      · refine .inl ?_
        rw [add_comm, zpow_add₀ two_ne_zero]
        gcongr
        exact_mod_cast normal
      · exact .inr ⟨least, h.size_pos⟩
    · rw [add_comm, zpow_add₀ two_ne_zero]
      gcongr
      exact_mod_cast h.small
  rw [nearestSize, exponent, mul_div_cancel_right₀ _ unit.ne', ← Int.cast_natCast (R := ℚ) m,
    nearestInt_intCast, Int.cast_natCast]
  exact min_eq_left h.size_lt_edge.le

end Stored

theorem nearestSize_edge : nearestSize edge = edge := by
  have exponent : grade edge = 972 := by
    refine grade_eq (by decide) (.inl le_rfl) ?_
    unfold edge
    exact zpow_lt_zpow_right₀ (by norm_num) (by norm_num)
  have mantissa : edge / 2 ^ (972 : ℤ) = (2 ^ 52 : ℤ) := by
    rw [edge, ← zpow_sub₀ two_ne_zero]
    norm_num
  rw [nearestSize, exponent, mantissa, nearestInt_intCast, ← mantissa,
    div_mul_cancel₀ _ (by positivity), min_self]

end TangledGraph.Rounding
