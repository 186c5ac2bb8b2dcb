import TangledGraph.Proofs.Number.Extent

/-!
# Operations on floats

Sums, differences and quotients of finite floats are computed exactly and then
rounded once, to the nearest number. The bits that a mantissa loses on its way are
kept as far as the rounding asks for them. So the operations keep the order of their
operands, and so do the floats of counts.
-/
namespace TangledGraph.Rounding

open Float.Model Float.Model.UnpackedFloat

/-- A mantissa with its residual bits stands for a number. -/
structure Represents (em : ExtendedMantissa) (t : ℚ) : Prop where
  floor : em.mantissa ≤ t
  lt_succ : t < em.mantissa + 1
  round : em.roundBit = true ↔ em.mantissa + 1 / 2 ≤ t
  sticky : em.stickyBit = true ↔ t ≠ em.mantissa ∧ t ≠ em.mantissa + 1 / 2

theorem represents_exact (m : ℕ) :
    Represents (ExtendedMantissa.ofMantissaAndAccuracy m .exact) m := by
  constructor <;> simp [ExtendedMantissa.ofMantissaAndAccuracy]

theorem Represents.inexact_iff {em : ExtendedMantissa} {t : ℚ} (h : Represents em t) :
    (em.roundBit || em.stickyBit) = true ↔ t ≠ em.mantissa := by
  rw [Bool.or_eq_true, h.round, h.sticky]
  constructor
  · rintro (round | ⟨apart, -⟩)
    · linarith
    · exact apart
  · intro apart
    by_cases half : t = em.mantissa + 1 / 2
    · exact .inl half.ge
    · exact .inr ⟨apart, half⟩

/-- A shift by one place halves the number. -/
theorem Represents.shiftRightOne {em : ExtendedMantissa} {t : ℚ} (h : Represents em t) :
    Represents em.shiftRightOne (t / 2) := by
  have inexact := h.inexact_iff
  obtain ⟨floor, lt_succ, -, -⟩ := h
  obtain even | odd := Nat.mod_two_eq_zero_or_one em.mantissa
  · obtain ⟨n, double⟩ := Nat.dvd_of_mod_eq_zero even
    have value : (em.mantissa : ℚ) = 2 * n := by exact_mod_cast double
    have half : em.mantissa / 2 = n := by omega
    rw [value] at floor lt_succ inexact
    refine ⟨?_, ?_, ?_, ?_⟩ <;> simp only [ExtendedMantissa.shiftRightOne, half, even]
    · linarith
    · linarith
    · simp only [bne_self_eq_false, Bool.false_eq_true, false_iff]
      linarith
    · rw [inexact]
      constructor
      · intro apart
        refine ⟨fun same => apart (by linarith), ?_⟩
        linarith
      · rintro ⟨apart, -⟩ same
        exact apart (by linarith)
  · obtain ⟨n, double⟩ : ∃ n, em.mantissa = 2 * n + 1 := ⟨em.mantissa / 2, by omega⟩
    have value : (em.mantissa : ℚ) = 2 * n + 1 := by exact_mod_cast double
    have half : em.mantissa / 2 = n := by omega
    rw [value] at floor lt_succ inexact
    refine ⟨?_, ?_, ?_, ?_⟩ <;> simp only [ExtendedMantissa.shiftRightOne, half, odd]
    · linarith
    · linarith
    · simp only [Nat.reduceBneDiff, true_iff]
      linarith
    · rw [inexact]
      constructor
      · intro apart
        refine ⟨?_, fun same => apart (by linarith)⟩
        linarith
      · rintro ⟨-, apart⟩ same
        exact apart (by linarith)

theorem Represents.shiftRight {em : ExtendedMantissa} {t : ℚ} (h : Represents em t) (k : ℕ) :
    Represents (em >>> k) (t / 2 ^ k) := by
  induction k with
  | zero =>
    rw [pow_zero, div_one]
    exact h
  | succ k ih =>
    have half : t / 2 ^ (k + 1) = t / 2 ^ k / 2 := by rw [pow_succ, div_div]
    rw [half]
    exact ih.shiftRightOne

theorem Represents.rounded {em : ExtendedMantissa} {t : ℚ} (h : Represents em t) :
    (em.roundedMantissa : ℤ) = nearestInt t := by
  obtain ⟨n, round, sticky⟩ := em
  obtain ⟨floor, lt_succ, hround, hsticky⟩ := h
  dsimp only at floor lt_succ hround hsticky
  have whole : ⌊t⌋ = n := Int.floor_eq_iff.2 ⟨mod_cast floor, mod_cast lt_succ⟩
  have part : Int.fract t = t - n := by rw [Int.fract, whole, Int.cast_natCast]
  unfold nearestInt
  rw [part, whole]
  cases round <;> cases sticky <;>
    simp only [Bool.false_eq_true, false_iff, true_iff, not_and_or, not_not, not_le]
      at hround hsticky
  case false.false | false.true =>
    rw [if_pos (by linarith)]
    rfl
  case true.false =>
    have half : t = n + 1 / 2 := hsticky.resolve_left (by linarith)
    rw [if_neg (by linarith), if_neg (by linarith)]
    rfl
  case true.true =>
    have above : n + 1 / 2 < t := lt_of_le_of_ne hround (Ne.symm hsticky.2)
    rw [if_neg (by linarith), if_pos (by linarith)]
    rfl

/-- A mantissa and a part of one, whose place next to a half the residual bits tell. -/
theorem represents_add {n : ℕ} {part : ℚ} {round sticky : Bool} (nonneg : 0 ≤ part)
    (lt_one : part < 1) (hround : round = true ↔ 1 / 2 ≤ part)
    (hsticky : sticky = true ↔ part ≠ 0 ∧ part ≠ 1 / 2) :
    Represents ⟨n, round, sticky⟩ (n + part) where
  floor := le_add_of_nonneg_right nonneg
  lt_succ := add_lt_add_right lt_one _
  round := hround.trans (add_le_add_iff_left _).symm
  sticky := hsticky.trans (and_congr add_eq_left.not.symm (add_right_inj _).not.symm)

/-- A whole quotient with the accuracy of its remainder. -/
theorem represents_quotient (a : ℕ) {b : ℕ} (pos : 0 < b) :
    Represents (ExtendedMantissa.ofMantissaAndAccuracy (a / b) (accuracyOfFraction (a % b) b))
      (a / b) := by
  have divisor : (0 : ℚ) < b := by exact_mod_cast pos
  have rest : ((a % b : ℕ) : ℚ) < b := by exact_mod_cast Nat.mod_lt a pos
  have value : (a / b : ℚ) = (a / b : ℕ) + (a % b : ℕ) / b := by
    rw [div_eq_iff divisor.ne', add_mul, div_mul_cancel₀ _ divisor.ne']
    exact_mod_cast (Nat.div_add_mod' a b).symm
  have half : 1 / 2 ≤ ((a % b : ℕ) : ℚ) / b ↔ b ≤ 2 * (a % b) := by
    rw [div_le_div_iff₀ two_pos divisor]
    norm_cast
    omega
  have half' : ((a % b : ℕ) : ℚ) / b = 1 / 2 ↔ 2 * (a % b) = b := by
    rw [div_eq_div_iff divisor.ne' two_ne_zero]
    norm_cast
    omega
  have nonneg : (0 : ℚ) ≤ (a % b : ℕ) / b := by positivity
  have lt_one : ((a % b : ℕ) : ℚ) / b < 1 := (div_lt_one divisor).2 rest
  rw [value]
  unfold accuracyOfFraction
  split
  case isTrue exact =>
    rw [exact, Nat.cast_zero, zero_div, add_zero]
    exact represents_exact _
  case isFalse inexact =>
    have part : ((a % b : ℕ) : ℚ) / b ≠ 0 := by
      simpa [divisor.ne'] using inexact
    obtain less | same | more := lt_trichotomy (2 * (a % b)) b
    · rw [Nat.compare_eq_lt.2 less]
      exact represents_add nonneg lt_one (iff_of_false Bool.false_ne_true (half.not.2 less.not_ge))
        (iff_of_true rfl ⟨part, half'.not.2 less.ne⟩)
    · rw [Nat.compare_eq_eq.2 same]
      exact represents_add nonneg lt_one (iff_of_true rfl (half.2 same.ge))
        (iff_of_false Bool.false_ne_true fun apart => apart.2 (half'.2 same))
    · rw [Nat.compare_eq_gt.2 more]
      exact represents_add nonneg lt_one (iff_of_true rfl (half.2 more.le))
        (iff_of_true rfl ⟨part, half'.not.2 more.ne'⟩)

/-- A float is what a number is rounded to. -/
structure Rounds (q : ℚ) (x : Float) : Prop where
  number : x.isNaN = false
  extent_eq : extent x = nearest q

theorem rounds_of_extent {x : Float} (h : x.isNaN = false) : Rounds (extent x) x :=
  ⟨h, (nearest_extent x).symm⟩

theorem Rounds.le {q r : ℚ} {x y : Float} (hx : Rounds q x) (hy : Rounds r y) (le : q ≤ r) :
    x ≤ y := by
  rw [le_iff_extent hx.number hy.number, hx.extent_eq, hy.extent_eq]
  exact nearest_mono le

/-- What is in place is stored, unless its exponent is too great. -/
theorem extentOf_pack {s : Sign} {m : ℕ} {e : ℤ} (pos : 0 < m) (small : m < 2 ^ 53)
    (low : -1074 ≤ e) (normal : 2 ^ 52 ≤ m ∨ e = -1074) :
    (Float.Model.pack (.finite s m e pos)).unpack.isNaN = false ∧
      extentOf (Float.Model.pack (.finite s m e pos)).unpack = signed s (min (m * 2 ^ e) edge) := by
  by_cases high : e ≤ 971
  · have stored : Stored m e := ⟨pos, small, low, high, normal⟩
    rw [unpack_pack pos small low high normal]
    exact ⟨rfl, congrArg (signed s) (min_eq_left stored.size_lt_edge.le).symm⟩
  · have beyond : 2 ^ 11 ≤ (e + 1023 + 52).toNat + 1 := by omega
    have packed : Float.Model.pack (.finite s m e pos) = Float.Model.pack (.infinity s) := by
      have bits : UnpackedFloat.pack Format.binary64 (.finite s m e pos) =
          UnpackedFloat.pack Format.binary64 (.infinity s) := if_pos beyond
      simp only [Float.Model.pack, bits]
    have infinite : (Float.Model.pack (.infinity s)).unpack = .infinity s := by cases s <;> rfl
    have large : edge ≤ m * 2 ^ e := by
      have mantissa : (2 ^ 52 : ℚ) ≤ m := by exact_mod_cast normal.resolve_right (by omega)
      calc edge = 2 ^ 52 * 2 ^ (972 : ℤ) := by
            rw [edge, ← zpow_natCast, ← zpow_add₀ two_ne_zero]
            rfl
        _ ≤ m * 2 ^ e := by
            gcongr
            · norm_num
            · omega
    rw [packed, infinite]
    exact ⟨rfl, congrArg (signed s) (min_eq_right large).symm⟩

/-- A mantissa of at most 53 bits, the next power of two included, in its place. -/
theorem extentOf_rounded {s : Sign} {r : ℕ} {e : ℤ} (small : r ≤ 2 ^ 53) (low : -1074 ≤ e)
    (normal : 2 ^ 52 ≤ r ∨ e = -1074) {u : UnpackedFloat}
    (model : u = if h : r = 0 then .zero s
      else if r < 2 ^ 53 then .finite s r e (Nat.pos_of_ne_zero h)
      else .finite s (2 ^ 52) (e + 1) (by decide)) :
    (Float.Model.pack u).unpack.isNaN = false ∧
      extentOf (Float.Model.pack u).unpack = signed s (min (r * 2 ^ e) edge) := by
  split_ifs at model with zero inside
  · rw [model, unpack_pack_zero, zero, Nat.cast_zero, zero_mul, min_eq_left edge_pos.le]
    exact ⟨rfl, by cases s <;> simp [extentOf, signed]⟩
  · rw [model]
    exact extentOf_pack (Nat.pos_of_ne_zero zero) inside low normal
  · obtain rfl : r = 2 ^ 53 := by omega
    have carry : ((2 ^ 53 : ℕ) : ℚ) * 2 ^ e = ((2 ^ 52 : ℕ) : ℚ) * 2 ^ (e + 1) := by
      rw [zpow_add_one₀ two_ne_zero]
      push_cast
      ring
    rw [model, carry]
    exact extentOf_pack (by decide) (by decide) (by omega) (.inl le_rfl)

/-- The exponent that a number is rounded to is that of the floats about it. -/
theorem grade_of_place {m : ℕ} {e : ℤ} {t : ℚ} (le : e ≤ place m e) (floor : (m : ℚ) ≤ t)
    (lt_succ : t < m + 1) (pos : 0 < t) : grade (t * 2 ^ e) = place m e := by
  have size : 0 < t * 2 ^ e := by positivity
  refine grade_eq (le_max_right _ _) ?_ ?_
  · by_cases least : place m e = -1074
    · exact .inr ⟨least, size⟩
    refine .inl ?_
    have nonzero : m ≠ 0 := by
      rintro rfl
      simp only [place, Nat.log2_zero] at least le
      omega
    have exponent : place m e + 52 = m.log2 + e := by
      unfold place at least ⊢
      omega
    have bits : (2 ^ m.log2 : ℚ) ≤ m := by exact_mod_cast Nat.log2_self_le nonzero
    rw [exponent, zpow_add₀ two_ne_zero, zpow_natCast]
    gcongr
    exact bits.trans floor
  · have bits : (m + 1 : ℚ) ≤ 2 ^ (m.log2 + 1) := by exact_mod_cast Nat.lt_log2_self (n := m)
    calc t * 2 ^ e < 2 ^ (m.log2 + 1) * 2 ^ e := by
          gcongr
          exact lt_succ.trans_le bits
      _ = 2 ^ (m.log2 + 1 + e : ℤ) := by
          rw [zpow_add₀ two_ne_zero]
          norm_cast
      _ ≤ 2 ^ (place m e + 53) := by
          refine zpow_le_zpow_right₀ (by norm_num) ?_
          unfold place
          omega

/-- A number is rounded to the mantissa that its quotient by the unit in place is rounded
to, and that one has no more than 53 bits. -/
theorem nearestSize_of_place {m r : ℕ} {e : ℤ} {t : ℚ} (le : e ≤ place m e)
    (floor : (m : ℚ) ≤ t) (lt_succ : t < m + 1)
    (rounded : (r : ℤ) = nearestInt (t / 2 ^ (place m e - e).toNat)) :
    nearestSize (t * 2 ^ e) = min ((r : ℚ) * 2 ^ place m e) edge ∧
      r ≤ 2 ^ 53 ∧ (2 ^ 52 ≤ r ∨ place m e = -1074) := by
  have nonneg : 0 ≤ t := (Nat.cast_nonneg m).trans floor
  obtain rfl | pos := nonneg.eq_or_lt
  · obtain rfl : m = 0 := by
      rw [← Nat.cast_eq_zero (R := ℚ)]
      exact floor.antisymm (Nat.cast_nonneg m)
    rw [zero_div, nearestInt_zero, Nat.cast_eq_zero] at rounded
    rw [zero_mul, nearestSize_zero, rounded, Nat.cast_zero, zero_mul, min_eq_left edge_pos.le]
    refine ⟨rfl, by decide, .inr ?_⟩
    rw [place, Nat.log2_zero] at le ⊢
    omega
  · have exponent := grade_of_place le floor lt_succ pos
    have unit : (2 : ℚ) ^ place m e = 2 ^ e * 2 ^ (place m e - e).toNat := by
      rw [← zpow_natCast, ← zpow_add₀ two_ne_zero]
      congr 1
      omega
    have quotient : t * 2 ^ e / 2 ^ grade (t * 2 ^ e) = t / 2 ^ (place m e - e).toNat := by
      rw [exponent, unit]
      field_simp
    have small := nearestInt_le_of_grade (t * 2 ^ e)
    have normal := le_nearestInt_of_grade (q := t * 2 ^ e) (by positivity)
    rw [quotient, ← rounded] at small normal
    refine ⟨?_, by omega, ?_⟩
    · rw [nearestSize, quotient, ← rounded, exponent, Int.cast_natCast]
    · by_cases least : place m e = -1074
      · exact .inr least
      · have := le_max_right (m.log2 - 52 + e : ℤ) (-1074)
        have := normal (by rw [exponent]; unfold place at least ⊢; omega)
        exact .inl (by omega)

/-- Where a mantissa and its accuracy are those of a number, that number is rounded. -/
theorem rounds_of_represents {x : Float} {s : Sign} {m : ℕ} {e : ℤ} {accuracy : Accuracy} {t : ℚ}
    (represents : Represents (ExtendedMantissa.ofMantissaAndAccuracy m accuracy) t)
    (le : e ≤ place m e)
    (model : x.toModel =
      Float.Model.pack (roundWithAccuracy Format.binary64 s m e accuracy)) :
    Rounds (signed s (t * 2 ^ e)) x := by
  have mantissa : (ExtendedMantissa.ofMantissaAndAccuracy m accuracy).mantissa = m := by
    obtain _ | _ | _ | _ := accuracy <;> rfl
  have floor : (m : ℚ) ≤ t := by simpa only [mantissa] using represents.floor
  have lt_succ : t < m + 1 := by simpa only [mantissa] using represents.lt_succ
  obtain ⟨r, rounded⟩ : ∃ r, (ExtendedMantissa.ofMantissaAndAccuracy m accuracy >>>
    (place m e - e).toNat).roundedMantissa = r := ⟨_, rfl⟩
  have nearest_r : (r : ℤ) = nearestInt (t / 2 ^ (place m e - e).toNat) := by
    rw [← rounded]
    exact (represents.shiftRight _).rounded
  obtain ⟨size, small, normal⟩ := nearestSize_of_place le floor lt_succ nearest_r
  obtain ⟨number, extent⟩ := extentOf_rounded small (le_max_right _ _) normal
    (roundWithAccuracy_of_rounded s le small rounded)
  rw [← model] at number extent
  refine ⟨number, ?_⟩
  have nonneg : 0 ≤ t := (Nat.cast_nonneg m).trans floor
  have unit_pos : (0 : ℚ) < 2 ^ e := by positivity
  rw [nearest_signed s (mul_nonneg nonneg unit_pos.le), size]
  exact extent

/-- An exact number is rounded, whatever its exponent. -/
theorem rounds_of_round {x : Float} {s : Sign} {m : ℕ} {e : ℤ}
    (model : x.toModel = Float.Model.pack (UnpackedFloat.round Format.binary64 s m e))
    (pos : m ≠ 0) :
    Rounds (signed s (m * 2 ^ e)) x := by
  obtain ⟨k, shifted⟩ : ∃ k, (e - place m e).toNat = k := ⟨_, rfl⟩
  have same : place (m * 2 ^ k) (e - k) = place m e := by
    unfold place
    rw [log2_mul_two_pow pos]
    push_cast
    congr 1
    ring
  have value : ((m * 2 ^ k : ℕ) : ℚ) * 2 ^ (e - k) = m * 2 ^ e := by
    rw [zpow_sub₀ two_ne_zero, zpow_natCast]
    push_cast
    field_simp
  rw [← value]
  refine rounds_of_represents (represents_exact _) (by omega) ?_
  rw [model]
  simp only [UnpackedFloat.round, targetExponent_eq, decreaseExponent, shifted, Nat.shiftLeft_eq]

theorem rounds_of_normalize {x : Float} {m e : ℤ} {s : Sign}
    (model : x.toModel =
      Float.Model.pack (UnpackedFloat.normalize Format.binary64 m e s)) :
    Rounds (m * 2 ^ e) x := by
  unfold UnpackedFloat.normalize at model
  obtain less | rfl | more := lt_trichotomy m 0
  · rw [Int.compare_eq_lt.2 less] at model
    have rounds := rounds_of_round model (by omega)
    have value : (((-m).toNat : ℕ) : ℚ) = -m := by
      have : (((-m).toNat : ℕ) : ℤ) = -m := by omega
      exact_mod_cast this
    rw [value] at rounds
    simpa [signed] using rounds
  · rw [Int.compare_eq_eq.2 rfl] at model
    have zero : x.toModel.unpack = .zero s := by
      rw [model]
      exact unpack_pack_zero s
    refine ⟨isNaN_of_unpacked zero rfl, ?_⟩
    simp [extent, zero, extentOf]
  · rw [Int.compare_eq_gt.2 more] at model
    have rounds := rounds_of_round model (by omega)
    have value : ((m.toNat : ℕ) : ℚ) = m := by
      have : ((m.toNat : ℕ) : ℤ) = m := by omega
      exact_mod_cast this
    rw [value] at rounds
    exact rounds

theorem unpack_pack_of_inPlace {u : UnpackedFloat} (number : u.isNaN = false)
    (inPlace : InPlace u) :
    (Float.Model.pack u).unpack = u := by
  cases u with
  | notANumber => cases number
  | infinity s | zero s => cases s <;> rfl
  | finite s m e pos => exact unpack_pack pos inPlace.small inPlace.low inPlace.high inPlace.normal

/-- A result that is stored as it is. -/
theorem extent_of_stored {x : Float} {u : UnpackedFloat}
    (model : x.toModel = Float.Model.pack u) (number : u.isNaN = false) (inPlace : InPlace u) :
    x.isNaN = false ∧ extent x = extentOf u := by
  have unpacked : x.toModel.unpack = u :=
    (congrArg Float.Model.unpack model).trans (unpack_pack_of_inPlace number inPlace)
  exact ⟨isNaN_of_unpacked unpacked number, congrArg extentOf unpacked⟩

theorem rounds_of_stored {x : Float} {u : UnpackedFloat}
    (model : x.toModel = Float.Model.pack u) (number : u.isNaN = false) (inPlace : InPlace u) :
    Rounds (extentOf u) x := by
  obtain ⟨number, value⟩ := extent_of_stored model number inPlace
  exact value ▸ rounds_of_extent number

/-- A mantissa that is moved to a smaller exponent says the same. -/
theorem aligned (s : Sign) (m : ℕ) {d e : ℤ} (le : d ≤ e) :
    ((s.apply (m <<< (e - d).toNat : ℕ) : ℤ) : ℚ) * 2 ^ d = signed s (m * 2 ^ e) := by
  obtain ⟨k, rfl⟩ : ∃ k : ℕ, e = d + k := ⟨(e - d).toNat, by omega⟩
  have shift : (d + k - d).toNat = k := by omega
  have size : ((m <<< k : ℕ) : ℚ) * 2 ^ d = m * 2 ^ (d + k) := by
    rw [Nat.shiftLeft_eq, zpow_add₀ two_ne_zero, zpow_natCast]
    push_cast
    ring
  rw [shift, ← size]
  cases s with
  | positive => rfl
  | negative => rw [Sign.apply, signed, Int.cast_neg, Int.cast_natCast, neg_mul]

/-- The extent of a difference is the difference, rounded. -/
theorem rounds_sub {x y : Float} (hx : x.isFinite = true) (hy : y.isFinite = true) :
    Rounds (extent x - extent y) (x - y) := by
  have model : (x - y).toModel = Float.Model.pack
      (UnpackedFloat.sub Format.binary64 x.toModel.unpack y.toModel.unpack) := rfl
  obtain ⟨s, hu, zero⟩ | ⟨s, m, d, pos, hu, stored, value⟩ := finite_cases hx <;>
    obtain ⟨t, hv, zero'⟩ | ⟨t, n, e, pos', hv, stored', value'⟩ := finite_cases hy <;>
    rw [hu, hv] at model
  · rw [zero, zero', sub_zero]
    cases s <;> cases t <;> exact rounds_of_stored model rfl trivial
  · rw [zero, value', zero_sub, ← signed_neg]
    exact rounds_of_stored model rfl stored'
  · rw [value, zero', sub_zero]
    exact rounds_of_stored model rfl stored
  · rw [value, value', ← aligned s m (min_le_left d e), ← aligned t n (min_le_right d e),
      ← sub_mul, ← Int.cast_sub]
    exact rounds_of_normalize model

/-- The extent of a sum is the sum, rounded. -/
theorem rounds_add {x y : Float} (hx : x.isFinite = true) (hy : y.isFinite = true) :
    Rounds (extent x + extent y) (x + y) := by
  have model : (x + y).toModel = Float.Model.pack
      (UnpackedFloat.add Format.binary64 x.toModel.unpack y.toModel.unpack) := rfl
  obtain ⟨s, hu, zero⟩ | ⟨s, m, d, pos, hu, stored, value⟩ := finite_cases hx <;>
    obtain ⟨t, hv, zero'⟩ | ⟨t, n, e, pos', hv, stored', value'⟩ := finite_cases hy <;>
    rw [hu, hv] at model
  · rw [zero, zero', add_zero]
    cases s <;> cases t <;> exact rounds_of_stored model rfl trivial
  · rw [zero, value', zero_add]
    exact rounds_of_stored model rfl stored'
  · rw [value, zero', add_zero]
    exact rounds_of_stored model rfl stored
  · rw [value, value', ← aligned s m (min_le_left d e), ← aligned t n (min_le_right d e),
      ← add_mul, ← Int.cast_add]
    exact rounds_of_normalize model

/-- The mantissa is moved to an exponent where the quotient has bits enough. -/
theorem rounds_of_divCore {x : Float} {s : Sign} {m n : ℕ} {d e : ℤ} (pos : 0 < m) (pos' : 0 < n)
    (model : x.toModel = Float.Model.pack (roundWithAccuracy Format.binary64 s
      (divCore Format.binary64 m d n e).1 (divCore Format.binary64 m d n e).2.1
      (divCore Format.binary64 m d n e).2.2)) :
    Rounds (signed s (m * 2 ^ d / (n * 2 ^ e))) x := by
  obtain ⟨target, chosen⟩ : ∃ target, min (d - e)
    (Format.binary64.targetExponent (totalExponent m d - totalExponent n e)) = target := ⟨_, rfl⟩
  have reach : target = min (d - e) (max (m.log2 + d - n.log2 - e - 53) (-1074)) := by
    rw [← chosen]
    simp only [Format.targetExponent, totalExponent, Format.mantissaBits, Format.minExponent]
    omega
  obtain ⟨k, shift⟩ : ∃ k, (d - e - target).toNat = k := ⟨_, rfl⟩
  have exponent : d - e = target + k := by omega
  have value : (m * 2 ^ d / (n * 2 ^ e) : ℚ) = (m * 2 ^ k : ℕ) / n * 2 ^ target := by
    have unit : (2 : ℚ) ^ d = 2 ^ target * 2 ^ k * 2 ^ e := by
      rw [← zpow_natCast, ← zpow_add₀ two_ne_zero, ← zpow_add₀ two_ne_zero]
      congr 1
      omega
    have divisor : (n : ℚ) ≠ 0 := by exact_mod_cast pos'.ne'
    rw [unit]
    push_cast
    field_simp
  have bits : target ≤ place (m * 2 ^ k / n) target := by
    by_cases least : target ≤ -1074
    · exact least.trans (le_max_right _ _)
    -- Above the least exponent the quotient has at least 53 bits.
    have quotient : 2 ^ 52 ≤ m * 2 ^ k / n := by
      rw [Nat.le_div_iff_mul_le pos']
      calc 2 ^ 52 * n ≤ 2 ^ 52 * 2 ^ (n.log2 + 1) := Nat.mul_le_mul_left _ Nat.lt_log2_self.le
        _ = 2 ^ (n.log2 + 53) := by ring
        _ ≤ 2 ^ (m.log2 + k) := Nat.pow_le_pow_right two_pos (by omega)
        _ = 2 ^ m.log2 * 2 ^ k := Nat.pow_add ..
        _ ≤ m * 2 ^ k := Nat.mul_le_mul_right _ (Nat.log2_self_le pos.ne')
    have log : 52 ≤ (m * 2 ^ k / n).log2 := (Nat.le_log2 (by omega)).2 quotient
    unfold place
    omega
  simp only [divCore, chosen, shift, Nat.shiftLeft_eq] at model
  rw [value]
  exact rounds_of_represents (represents_quotient _ pos') bits model

/-- The extent of a quotient is the quotient, rounded. -/
theorem rounds_div {x y : Float} (hx : x.isFinite = true) (hy : y.isFinite = true)
    (nonzero : extent y ≠ 0) : Rounds (extent x / extent y) (x / y) := by
  have model : (x / y).toModel = Float.Model.pack
      (UnpackedFloat.div Format.binary64 x.toModel.unpack y.toModel.unpack) := rfl
  obtain ⟨t, -, zero'⟩ | ⟨t, n, e, pos', hv, stored', value'⟩ := finite_cases hy
  · exact absurd zero' nonzero
  obtain ⟨s, hu, zero⟩ | ⟨s, m, d, pos, hu, stored, value⟩ := finite_cases hx <;>
    rw [hu, hv] at model
  · rw [zero, zero_div]
    exact rounds_of_stored model rfl trivial
  · rw [value, value', ← signed_div]
    exact rounds_of_divCore pos pos' model

theorem unpack_ofNat_zero : (Float.ofNat 0).toModel.unpack = .zero .positive := rfl

theorem extent_ofNat_of_log2 {n : ℕ} (bits : n.log2 ≤ 52) :
    (Float.ofNat n).isNaN = false ∧ extent (Float.ofNat n) = n := by
  obtain rfl | pos := n.eq_zero_or_pos
  · refine ⟨isNaN_of_unpacked unpack_ofNat_zero rfl, ?_⟩
    rw [extent, unpack_ofNat_zero, extentOf, Nat.cast_zero]
  · obtain ⟨h, unpacked⟩ := isPositive_ofNat pos bits
    refine ⟨isNaN_of_unpacked unpacked rfl, ?_⟩
    rw [extent, unpacked, extentOf, signed, zpow_neg, zpow_natCast]
    push_cast
    field_simp

/-- The float of a count is the count, rounded. -/
theorem rounds_ofNat (n : ℕ) : Rounds n (Float.ofNat n) := by
  by_cases bits : n.log2 ≤ 52
  · obtain ⟨number, value⟩ := extent_ofNat_of_log2 bits
    exact value ▸ rounds_of_extent number
  · have large := two_pow_le_of_log2 (Nat.not_le.1 bits)
    have reach : -53 ≤ place (n * 2 ^ 53) (-53) := by
      unfold place
      rw [log2_mul_two_pow (by omega)]
      omega
    have value : signed .positive (((n * 2 ^ 53 : ℕ) : ℚ) * 2 ^ (-53 : ℤ)) = n := by
      rw [signed, zpow_neg]
      push_cast
      field_simp
    exact value ▸ rounds_of_represents (represents_exact _) reach (ofNat_toModel large)

/-- The float of a count is not below that of a smaller one. -/
theorem ofNat_le {m n : ℕ} (le : m ≤ n) : Float.ofNat m ≤ Float.ofNat n :=
  (rounds_ofNat m).le (rounds_ofNat n) (by exact_mod_cast le)

/-- Counts up to two to the power of 53 have floats of their own. -/
theorem extent_ofNat {n : ℕ} (small : n ≤ 2 ^ 53) : extent (Float.ofNat n) = n := by
  by_cases bits : n.log2 ≤ 52
  · exact (extent_ofNat_of_log2 bits).2
  · obtain rfl : n = 2 ^ 53 := small.antisymm (two_pow_le_of_log2 (Nat.not_le.1 bits))
    have carried : (((2 ^ 53 : ℕ) : ℚ)) = ((2 ^ 52 : ℕ) : ℚ) * 2 ^ (1 : ℤ) := by norm_num
    have stored : Stored (2 ^ 52) 1 :=
      ⟨by decide, by decide, by decide, by decide, .inl le_rfl⟩
    rw [(rounds_ofNat _).extent_eq, nearest, if_pos (Nat.cast_nonneg _), carried,
      stored.nearestSize_eq]

theorem extent_ofNat_pos {n : ℕ} (pos : 0 < n) : 0 < extent (Float.ofNat n) := by
  have least := (le_iff_numbers.1 (ofNat_le pos)).2.2
  rw [extent_ofNat (by decide), Nat.succ_eq_add_one, zero_add, Nat.cast_one] at least
  exact one_pos.trans_le least

theorem ofNat_lt {m n : ℕ} (less : m < n) (small : n ≤ 2 ^ 53) : Float.ofNat m < Float.ofNat n := by
  rw [lt_iff_extent (rounds_ofNat m).number (rounds_ofNat n).number, extent_ofNat small,
    extent_ofNat (less.le.trans small)]
  exact_mod_cast less

theorem rounds_zero : Rounds 0 0.0 := by
  have count : (0.0 : Float) = Float.ofNat 0 := rfl
  exact count ▸ Nat.cast_zero (R := ℚ) ▸ rounds_ofNat 0

theorem rounds_one : Rounds 1 1.0 := by
  have count : (1.0 : Float) = Float.ofNat 1 := rfl
  exact count ▸ Nat.cast_one (R := ℚ) ▸ rounds_ofNat 1

theorem extent_zero : extent 0.0 = 0 := rfl

theorem extent_one : extent 1.0 = 1 := by
  have count : (1.0 : Float) = Float.ofNat 1 := rfl
  rw [count, extent_ofNat (by decide), Nat.cast_one]

/-- The negative of a number is its mirror image. -/
theorem extent_neg {x : Float} (number : x.isNaN = false) :
    (-x).isNaN = false ∧ extent (-x) = -extent x := by
  have model : (-x).toModel = Float.Model.pack x.toModel.unpack.neg := rfl
  unfold extent
  cases unpacked : x.toModel.unpack with
  | notANumber => exact absurd unpacked (unpack_ne_notANumber number)
  | infinity s =>
    rw [unpacked] at model
    rw [extentOf, ← signed_neg]
    exact extent_of_stored model rfl trivial
  | zero s =>
    rw [unpacked] at model
    rw [extentOf, neg_zero]
    exact extent_of_stored model rfl trivial
  | finite s m e pos =>
    rw [unpacked] at model
    rw [extentOf, ← signed_neg]
    exact extent_of_stored model rfl (stored_of_unpack unpacked)

theorem extent_abs {x : Float} (number : x.isNaN = false) :
    x.abs.isNaN = false ∧ extent x.abs = |extent x| := by
  have model : x.abs.toModel = Float.Model.pack x.toModel.unpack.abs := rfl
  unfold extent
  cases unpacked : x.toModel.unpack with
  | notANumber => exact absurd unpacked (unpack_ne_notANumber number)
  | infinity s =>
    rw [unpacked] at model
    rw [extentOf, abs_signed, abs_of_pos edge_pos]
    exact extent_of_stored model rfl trivial
  | zero s =>
    rw [unpacked] at model
    rw [extentOf, abs_zero]
    exact extent_of_stored model rfl trivial
  | finite s m e pos =>
    rw [unpacked] at model
    have stored := stored_of_unpack unpacked
    rw [extentOf, abs_signed, abs_of_pos stored.size_pos]
    exact extent_of_stored model rfl stored

theorem float_neg_le {x y : Float} (h : x ≤ y) : -y ≤ -x := by
  obtain ⟨hx, hy, le⟩ := le_iff_numbers.1 h
  obtain ⟨hx', negative⟩ := extent_neg hx
  obtain ⟨hy', negative'⟩ := extent_neg hy
  exact le_iff_numbers.2 ⟨hy', hx', by rw [negative, negative']; exact neg_le_neg le⟩

theorem float_neg_lt {x y : Float} (h : x < y) : -y < -x := by
  obtain ⟨hx, hy, less⟩ := lt_iff_numbers.1 h
  obtain ⟨hx', negative⟩ := extent_neg hx
  obtain ⟨hy', negative'⟩ := extent_neg hy
  exact lt_iff_numbers.2 ⟨hy', hx', by rw [negative, negative']; exact neg_lt_neg less⟩

theorem unpack_of_infinite {x : Float} (number : x.isNaN = false) (infinite : x.isFinite = false) :
    ∃ s, x.toModel.unpack = .infinity s := by
  have unfolded : UnpackedFloat.isFinite x.toModel.unpack = false := infinite
  cases unpacked : x.toModel.unpack with
  | notANumber => exact absurd unpacked (unpack_ne_notANumber number)
  | infinity s => exact ⟨s, rfl⟩
  | zero | finite =>
    rw [unpacked] at unfolded
    cases unfolded

/-- The quotient of infinities is not a number. -/
theorem isNaN_div_of_infinite {x y : Float} (hx : x.isNaN = false) (hy : y.isNaN = false)
    (infinite : x.isFinite = false) (infinite' : y.isFinite = false) : (x / y).isNaN = true := by
  obtain ⟨s, hu⟩ := unpack_of_infinite hx infinite
  obtain ⟨t, hv⟩ := unpack_of_infinite hy infinite'
  have model : (x / y).isNaN = UnpackedFloat.isNaN (Float.Model.pack
      (UnpackedFloat.div Format.binary64 x.toModel.unpack y.toModel.unpack)).unpack := rfl
  rw [model, hu, hv]
  cases s <;> cases t <;> decide +kernel

/-- Nothing is left of a finite number that is divided by an infinity. -/
theorem extent_div_of_infinite {x y : Float} (hx : x.isFinite = true) (hy : y.isNaN = false)
    (infinite : y.isFinite = false) : (x / y).isNaN = false ∧ extent (x / y) = 0 := by
  have model : (x / y).toModel = Float.Model.pack
      (UnpackedFloat.div Format.binary64 x.toModel.unpack y.toModel.unpack) := rfl
  obtain ⟨t, hv⟩ := unpack_of_infinite hy infinite
  obtain ⟨s, hu, -⟩ | ⟨s, m, e, pos, hu, -⟩ := finite_cases hx <;>
    rw [hu, hv] at model <;>
    exact extent_of_stored model rfl trivial

end TangledGraph.Rounding
