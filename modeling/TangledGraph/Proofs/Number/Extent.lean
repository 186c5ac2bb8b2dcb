import TangledGraph.Proofs.Number.Nearest
import TangledGraph.Proofs.Number.Order
import TangledGraph.Proofs.Number.Rounding

/-!
# Extents of floats

The extent of a float is the rational number that it stands for; that of an infinity
is where the exponents end, which is what too large numbers are rounded to. Floats
that are numbers are in the order of their extents.
-/
namespace TangledGraph.Rounding

open Float.Model Float.Model.UnpackedFloat

/-- A number with a sign. -/
def signed : Sign → ℚ → ℚ
  | .positive, q => q
  | .negative, q => -q

/-- What an unpacked float stands for. -/
def extentOf : UnpackedFloat → ℚ
  | .notANumber | .zero _ => 0
  | .infinity s => signed s edge
  | .finite s m e _ => signed s (m * 2 ^ e)

def extent (x : Float) : ℚ := extentOf x.toModel.unpack

@[simp] theorem signed_neg (s : Sign) (q : ℚ) : signed (-s) q = -signed s q := by
  cases s
  · exact (neg_neg q).symm
  · rfl

theorem signed_div (s t : Sign) (q r : ℚ) : signed (s / t) (q / r) = signed s q / signed t r := by
  cases s <;> cases t
  · exact (neg_div_neg_eq q r).symm
  · exact (neg_div r q).symm
  · exact (div_neg q).symm
  · rfl

theorem nearest_signed (s : Sign) {q : ℚ} (nonneg : 0 ≤ q) :
    nearest (signed s q) = signed s (nearestSize q) := by
  cases s with
  | positive => exact if_pos nonneg
  | negative =>
    obtain rfl | pos := nonneg.eq_or_lt
    · simp [signed, nearest]
    · have less : ¬0 ≤ -q := by linarith
      simp only [signed, nearest, if_neg less, neg_neg]

theorem stored_of_unpack {x : Float} {s : Sign} {m : ℕ} {e : ℤ} {pos : 0 < m}
    (h : x.toModel.unpack = .finite s m e pos) : Stored m e := by
  obtain ⟨small, low, normal⟩ := unpack_bounds h
  refine ⟨pos, small, low, ?_, normal⟩
  have bias : (Format.binary64.exponentBias : Int) = 1023 := rfl
  have ones : (-1#11).toNat = 2047 := rfl
  have capacity : 2 ^ Format.binary64.exponentBits = 2048 := rfl
  obtain ⟨b, read⟩ : ∃ b : BitVec Format.binary64.numBits, x.toModel.toBits.toBitVec = b := ⟨_, rfl⟩
  have word := (unpackExponent b).isLt
  simp only [Float.Model.unpack, UnpackedFloat.unpack, bias, read, Nat.cast_ofNat] at h
  split at h
  · split at h <;> cases h
  case isFalse finite =>
    have below : (unpackExponent b).toNat ≠ 2047 := fun same =>
      finite (BitVec.eq_of_toNat_eq (same.trans ones.symm))
    split at h
    · split at h
      · cases h
      · simp only [UnpackedFloat.finite.injEq] at h
        omega
    · simp only [UnpackedFloat.finite.injEq] at h
      omega

/-- Only numbers that are stored. -/
def InPlace : UnpackedFloat → Prop
  | .finite _ m e _ => Stored m e
  | _ => True

theorem inPlace_unpack (x : Float) : InPlace x.toModel.unpack := by
  cases unpacked : x.toModel.unpack with
  | finite s m e pos => exact stored_of_unpack unpacked
  | _ => trivial

theorem isNaN_of_unpack {x : Float} (h : x.toModel.unpack ≠ .notANumber) : x.isNaN = false := by
  have unfolded : x.isNaN = UnpackedFloat.isNaN x.toModel.unpack := rfl
  rw [unfolded]
  cases unpacked : x.toModel.unpack with
  | notANumber => exact absurd unpacked h
  | _ => rfl

theorem isNaN_of_unpacked {x : Float} {u : UnpackedFloat} (unpacked : x.toModel.unpack = u)
    (number : u.isNaN = false) : x.isNaN = false :=
  (congrArg UnpackedFloat.isNaN unpacked).trans number

theorem extentOf_lt_of_rank_lt {u v : UnpackedFloat} (hu : InPlace u) (hv : InPlace v)
    (less : rank u < rank v) : extentOf u < extentOf v := by
  rcases u with ⟨_ | _⟩ | _ | ⟨_ | _⟩ | ⟨_ | _, m, d, pos⟩ <;>
    rcases v with ⟨_ | _⟩ | _ | ⟨_ | _⟩ | ⟨_ | _, n, e, pos'⟩ <;>
    simp [rank, Prod.Lex.toLex_lt_toLex, extentOf, signed, InPlace] at hu hv less ⊢
  case infinity.negative.finite.negative => exact hv.size_lt_edge
  case infinity.negative.finite.positive =>
    linarith [hv.size_pos, edge_pos]
  case finite.positive.infinity.positive => exact hu.size_lt_edge
  case finite.negative.infinity.positive =>
    linarith [hu.size_pos, edge_pos]
  case finite.negative.finite.positive => linarith [hu.size_pos, hv.size_pos]
  case finite.negative.finite.negative => exact hv.size_lt hu (by omega)
  case finite.positive.finite.positive => exact hu.size_lt hv less
  case infinity.negative.infinity.positive => linarith [edge_pos]
  case notANumber.finite.positive | zero.negative.finite.positive | zero.positive.finite.positive =>
    exact hv.size_pos
  case finite.negative.notANumber | finite.negative.zero.negative | finite.negative.zero.positive =>
    exact hu.size_pos
  all_goals exact edge_pos

theorem extentOf_eq_of_rank_eq {u v : UnpackedFloat} (same : rank u = rank v) :
    extentOf u = extentOf v := by
  rcases u with ⟨_ | _⟩ | _ | ⟨_ | _⟩ | ⟨_ | _, m, d, pos⟩ <;>
    rcases v with ⟨_ | _⟩ | _ | ⟨_ | _⟩ | ⟨_ | _, n, e, pos'⟩ <;>
    simp [rank, extentOf, signed] at same ⊢
  all_goals rw [same.1, same.2]

theorem rankOf_lt_iff (x y : Float) : rankOf x < rankOf y ↔ extent x < extent y := by
  refine ⟨extentOf_lt_of_rank_lt (inPlace_unpack x) (inPlace_unpack y), fun less => ?_⟩
  by_contra more
  obtain same | greater := (not_lt.1 more).eq_or_lt
  · exact less.ne' (extentOf_eq_of_rank_eq same)
  · exact less.asymm (extentOf_lt_of_rank_lt (inPlace_unpack y) (inPlace_unpack x) greater)

theorem lt_iff_extent {x y : Float} (hx : x.isNaN = false) (hy : y.isNaN = false) :
    x < y ↔ extent x < extent y :=
  (lt_iff hx hy).trans (rankOf_lt_iff x y)

theorem le_iff_extent {x y : Float} (hx : x.isNaN = false) (hy : y.isNaN = false) :
    x ≤ y ↔ extent x ≤ extent y := by
  rw [le_iff hx hy, ← not_lt, ← not_lt, rankOf_lt_iff]

theorem beq_iff_extent {x y : Float} (hx : x.isNaN = false) (hy : y.isNaN = false) :
    (x == y) = true ↔ extent x = extent y := by
  rw [beq_iff hx hy, eq_iff_le_not_lt, eq_iff_le_not_lt, ← not_lt, ← not_lt, rankOf_lt_iff,
    rankOf_lt_iff]

theorem numbers_of_compare {x y : Float}
    (compared : UnpackedFloat.compare x.toModel.unpack y.toModel.unpack ≠ none) :
    x.isNaN = false ∧ y.isNaN = false := by
  refine ⟨isNaN_of_unpack fun nan => ?_, isNaN_of_unpack fun nan => ?_⟩ <;> rw [nan] at compared
  · exact compared rfl
  · cases unpacked : x.toModel.unpack <;> rw [unpacked] at compared <;> exact compared rfl

/-- A float that is less than another is a number, and so is the other. -/
theorem lt_iff_numbers {x y : Float} :
    x < y ↔ x.isNaN = false ∧ y.isNaN = false ∧ extent x < extent y := by
  constructor
  · intro less
    have compared : UnpackedFloat.lt x.toModel.unpack y.toModel.unpack = true :=
      of_decide_eq_true less
    obtain ⟨hx, hy⟩ := numbers_of_compare fun none => by
      rw [UnpackedFloat.lt, none] at compared
      cases compared
    exact ⟨hx, hy, (lt_iff_extent hx hy).1 less⟩
  · rintro ⟨hx, hy, less⟩
    exact (lt_iff_extent hx hy).2 less

theorem le_iff_numbers {x y : Float} :
    x ≤ y ↔ x.isNaN = false ∧ y.isNaN = false ∧ extent x ≤ extent y := by
  constructor
  · intro le
    have compared : UnpackedFloat.le x.toModel.unpack y.toModel.unpack = true :=
      of_decide_eq_true le
    obtain ⟨hx, hy⟩ := numbers_of_compare fun none => by
      rw [UnpackedFloat.le, none] at compared
      cases compared
    exact ⟨hx, hy, (le_iff_extent hx hy).1 le⟩
  · rintro ⟨hx, hy, le⟩
    exact (le_iff_extent hx hy).2 le

theorem float_le_of_lt {x y : Float} (h : x < y) : x ≤ y := by
  obtain ⟨hx, hy, less⟩ := lt_iff_numbers.1 h
  exact le_iff_numbers.2 ⟨hx, hy, less.le⟩

theorem float_le_trans {x y z : Float} (h : x ≤ y) (h' : y ≤ z) : x ≤ z := by
  obtain ⟨hx, -, le⟩ := le_iff_numbers.1 h
  obtain ⟨-, hz, le'⟩ := le_iff_numbers.1 h'
  exact le_iff_numbers.2 ⟨hx, hz, le.trans le'⟩

theorem float_lt_of_le_of_lt {x y z : Float} (h : x ≤ y) (h' : y < z) : x < z := by
  obtain ⟨hx, -, le⟩ := le_iff_numbers.1 h
  obtain ⟨-, hz, less⟩ := lt_iff_numbers.1 h'
  exact lt_iff_numbers.2 ⟨hx, hz, le.trans_lt less⟩

theorem float_lt_irrefl (x : Float) : ¬x < x := fun less =>
  lt_irrefl _ (lt_iff_numbers.1 less).2.2

/-- A finite float is a zero, or a number that is stored. -/
theorem finite_cases {x : Float} (h : x.isFinite = true) :
    (∃ s, x.toModel.unpack = .zero s ∧ extent x = 0) ∨
      ∃ s m e pos, x.toModel.unpack = .finite s m e pos ∧ Stored m e ∧
        extent x = signed s (m * 2 ^ e) := by
  have finite : UnpackedFloat.isFinite x.toModel.unpack = true := h
  unfold extent
  cases unpacked : x.toModel.unpack with
  | notANumber | infinity s =>
    rw [unpacked] at finite
    cases finite
  | zero s => exact .inl ⟨s, rfl, rfl⟩
  | finite s m e pos => exact .inr ⟨s, m, e, pos, rfl, stored_of_unpack unpacked, rfl⟩

/-- Nothing is nearer to what a float says than the float. -/
theorem nearest_extent (x : Float) : nearest (extent x) = extent x := by
  have inPlace := inPlace_unpack x
  unfold extent
  cases unpacked : x.toModel.unpack with
  | notANumber | zero s => exact nearest_zero
  | infinity s =>
    rw [extentOf, nearest_signed s edge_pos.le, nearestSize_edge]
  | finite s m e pos =>
    rw [unpacked] at inPlace
    have stored : Stored m e := inPlace
    rw [extentOf, nearest_signed s stored.size_pos.le, stored.nearestSize_eq]

theorem isNaN_of_isFinite {x : Float} (h : x.isFinite = true) : x.isNaN = false := by
  obtain ⟨s, unpacked, -⟩ | ⟨s, m, e, pos, unpacked, -⟩ := finite_cases h <;>
    exact isNaN_of_unpacked unpacked rfl

@[simp] theorem abs_signed (s : Sign) (q : ℚ) : |signed s q| = |q| := by
  cases s
  · exact abs_neg q
  · rfl

/-- The finite floats are those within the edge. -/
theorem isFinite_iff_extent {x : Float} (number : x.isNaN = false) :
    x.isFinite = true ↔ |extent x| < edge := by
  constructor
  · intro finite
    obtain ⟨-, -, zero⟩ | ⟨s, m, e, -, -, stored, value⟩ := finite_cases finite
    · rw [zero, abs_zero]
      exact edge_pos
    · rw [value, abs_signed, abs_of_pos stored.size_pos]
      exact stored.size_lt_edge
  · intro within
    have finite : x.isFinite = UnpackedFloat.isFinite x.toModel.unpack := rfl
    rw [finite]
    unfold extent at within
    cases unpacked : x.toModel.unpack with
    | notANumber => exact absurd unpacked (unpack_ne_notANumber number)
    | infinity s =>
      rw [unpacked, extentOf, abs_signed, abs_of_pos edge_pos] at within
      exact absurd within (lt_irrefl _)
    | zero | finite => rfl

end TangledGraph.Rounding
