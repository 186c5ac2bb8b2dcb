import Mathlib

/-!
# The order of floats

Floats that are numbers are in the order of their classes, exponents and
mantissas, the last two with the sign of the number. So to be not below is total
and transitive on them, as a sort needs it.
-/
namespace TangledGraph.Rounding

open Float.Model Float.Model.UnpackedFloat

/-- Where a number stands: its class, exponent and mantissa with its sign. -/
def rank : UnpackedFloat → Int ×ₗ Int ×ₗ Int
  | .notANumber | .zero _ => toLex (0, toLex (0, 0))
  | .infinity .positive => toLex (2, toLex (0, 0))
  | .infinity .negative => toLex (-2, toLex (0, 0))
  | .finite .positive m e _ => toLex (1, toLex (e, m))
  | .finite .negative m e _ => toLex (-1, toLex (-e, -m))

theorem lt_iff_rank {u v : UnpackedFloat} (hu : u ≠ .notANumber) (hv : v ≠ .notANumber) :
    UnpackedFloat.lt u v = true ↔ rank u < rank v := by
  rcases u with ⟨_ | _⟩ | _ | ⟨_ | _⟩ | ⟨_ | _, m, e, pos⟩ <;>
    rcases v with ⟨_ | _⟩ | _ | ⟨_ | _⟩ | ⟨_ | _, n, d, pos'⟩ <;>
    simp [UnpackedFloat.lt, UnpackedFloat.compare, rank, Prod.Lex.toLex_lt_toLex] at hu hv ⊢
  case infinity.negative.infinity.positive => rfl
  case finite.negative.finite.negative =>
    rw [Ordering.then_eq_gt, Int.compare_eq_gt, Int.compare_eq_eq, Nat.compare_eq_gt]
  case finite.positive.finite.positive =>
    rw [Ordering.then_eq_lt, Int.compare_eq_lt, Int.compare_eq_eq, Nat.compare_eq_lt]

theorem le_iff_rank {u v : UnpackedFloat} (hu : u ≠ .notANumber) (hv : v ≠ .notANumber) :
    UnpackedFloat.le u v = true ↔ rank u ≤ rank v := by
  rcases u with ⟨_ | _⟩ | _ | ⟨_ | _⟩ | ⟨_ | _, m, e, pos⟩ <;>
    rcases v with ⟨_ | _⟩ | _ | ⟨_ | _⟩ | ⟨_ | _, n, d, pos'⟩ <;>
    simp [UnpackedFloat.le, UnpackedFloat.compare, rank, Prod.Lex.toLex_le_toLex] at hu hv ⊢
  case infinity.negative.infinity.negative => rfl
  case infinity.negative.infinity.positive => rfl
  case infinity.positive.infinity.negative => rfl
  case infinity.positive.infinity.positive => rfl
  case finite.negative.finite.negative =>
    rw [Ordering.isGE_iff_ne_lt, Ordering.then_eq_lt, Int.compare_eq_lt,
      Int.compare_eq_eq, Nat.compare_eq_lt]
    omega
  case finite.positive.finite.positive =>
    rw [Ordering.isLE_iff_ne_gt, Ordering.then_eq_gt, Int.compare_eq_gt,
      Int.compare_eq_eq, Nat.compare_eq_gt]
    omega

theorem beq_iff_rank {u v : UnpackedFloat} (hu : u ≠ .notANumber) (hv : v ≠ .notANumber) :
    UnpackedFloat.beq u v = true ↔ rank u = rank v := by
  rcases u with ⟨_ | _⟩ | _ | ⟨_ | _⟩ | ⟨_ | _, m, e, pos⟩ <;>
    rcases v with ⟨_ | _⟩ | _ | ⟨_ | _⟩ | ⟨_ | _, n, d, pos'⟩ <;>
    simp [UnpackedFloat.beq, UnpackedFloat.compare, rank] at hu hv ⊢
  case infinity.negative.infinity.negative | infinity.positive.infinity.positive => rfl

/-- Where a float stands. -/
def rankOf (x : Float) : Int ×ₗ Int ×ₗ Int := rank x.toModel.unpack

theorem unpack_ne_notANumber {x : Float} (h : x.isNaN = false) :
    x.toModel.unpack ≠ .notANumber := by
  intro unpacked
  have nan : UnpackedFloat.isNaN x.toModel.unpack = false := h
  rw [unpacked] at nan
  cases nan

theorem lt_iff {x y : Float} (hx : x.isNaN = false) (hy : y.isNaN = false) :
    x < y ↔ rankOf x < rankOf y := by
  rw [rankOf, rankOf, ← lt_iff_rank (unpack_ne_notANumber hx) (unpack_ne_notANumber hy)]
  exact decide_eq_true_iff

theorem le_iff {x y : Float} (hx : x.isNaN = false) (hy : y.isNaN = false) :
    x ≤ y ↔ rankOf x ≤ rankOf y := by
  rw [rankOf, rankOf, ← le_iff_rank (unpack_ne_notANumber hx) (unpack_ne_notANumber hy)]
  exact decide_eq_true_iff

theorem beq_iff {x y : Float} (hx : x.isNaN = false) (hy : y.isNaN = false) :
    (x == y) = true ↔ rankOf x = rankOf y := by
  have unfolded : (x == y) = UnpackedFloat.beq x.toModel.unpack y.toModel.unpack := rfl
  rw [unfolded, rankOf, rankOf, beq_iff_rank (unpack_ne_notANumber hx) (unpack_ne_notANumber hy)]

/-- A number is equal to itself, as floats compare. -/
theorem beq_self {x : Float} (hx : x.isNaN = false) : (x == x) = true :=
  (beq_iff hx hx).2 rfl

/-- What a sort relies on. -/
structure Sorts {α : Type} (le : α → α → Bool) (xs : List α) : Prop where
  total : ∀ a ∈ xs, ∀ b ∈ xs, le a b || le b a
  trans : ∀ a ∈ xs, ∀ b ∈ xs, ∀ c ∈ xs, le a b → le b c → le a c

theorem Sorts.pairwise {α : Type} {le : α → α → Bool} {xs : List α} (h : Sorts le xs) :
    (xs.mergeSort le).Pairwise fun a b => le a b = true := by
  have sorted : (xs.attach.mergeSort fun a b => le a.1 b.1).Pairwise fun a b => le a.1 b.1 = true :=
    List.pairwise_mergeSort (fun a b c => h.trans a.1 a.2 b.1 b.2 c.1 c.2)
      (fun a b => h.total a.1 a.2 b.1 b.2) _
  have same : (xs.attach.mergeSort fun a b => le a.1 b.1).map Subtype.val = xs.mergeSort le := by
    rw [List.map_mergeSort (s := le) (f := Subtype.val) fun _ _ _ _ => rfl,
      List.attach_map_subtype_val]
  rw [← same]
  exact sorted.map _ fun a b => id

/-- Numbers can be sorted in descending order. -/
theorem sorts_descending {α : Type} (f : α → Float) {xs : List α}
    (numbers : ∀ a ∈ xs, (f a).isNaN = false) : Sorts (fun a b => !(f a < f b)) xs := by
  have not_lt {a b} (ha : a ∈ xs) (hb : b ∈ xs) :
      (!decide (f a < f b)) = true ↔ rankOf (f b) ≤ rankOf (f a) := by
    rw [Bool.not_eq_true', decide_eq_false_iff_not, lt_iff (numbers a ha) (numbers b hb), not_lt]
  constructor
  · intro a ha b hb
    rw [Bool.or_eq_true, not_lt ha hb, not_lt hb ha]
    exact le_total _ _
  · intro a ha b hb c hc
    rw [not_lt ha hb, not_lt hb hc, not_lt ha hc]
    exact fun h h' => h'.trans h

end TangledGraph.Rounding
