import TangledGraph.Number
import TangledGraph.Proofs.Number.Operations

/-!
# The lesser and the greater

Of two numbers the lesser says the minimum of what they say, and the greater the
maximum. So a fold of either over numbers that are finite ends at one of them, beyond
which none goes, since an infinity where it starts gives way to the first.
-/
namespace TangledGraph.Rounding

theorem extent_lesser {x y : Float} (hx : x.isNaN = false) (hy : y.isNaN = false) :
    (lesser x y).isNaN = false ∧ extent (lesser x y) = min (extent x) (extent y) := by
  unfold lesser
  rw [hy, Bool.false_or]
  split
  case isTrue less =>
    have less := (lt_iff_extent hx hy).1 (of_decide_eq_true less)
    exact ⟨hx, (min_eq_left less.le).symm⟩
  case isFalse more =>
    have more := (lt_iff_extent hx hy).not.1 (of_decide_eq_false (Bool.eq_false_iff.2 more))
    exact ⟨hy, (min_eq_right (not_lt.1 more)).symm⟩

theorem extent_greater {x y : Float} (hx : x.isNaN = false) (hy : y.isNaN = false) :
    (greater x y).isNaN = false ∧ extent (greater x y) = max (extent x) (extent y) := by
  unfold greater
  rw [hy, Bool.false_or]
  split
  case isTrue less =>
    have less := (lt_iff_extent hy hx).1 (of_decide_eq_true less)
    exact ⟨hx, (max_eq_left less.le).symm⟩
  case isFalse more =>
    have more := (lt_iff_extent hy hx).not.1 (of_decide_eq_false (Bool.eq_false_iff.2 more))
    exact ⟨hy, (max_eq_right (not_lt.1 more)).symm⟩

/-- A fold that keeps the lower of two numbers, in whatever order, ends at the lowest. -/
theorem foldl_lowest {α : Type} [LinearOrder α] {f : Float → α} {pick : Float → Float → Float}
    (picks : ∀ {x y}, x.isNaN = false → y.isNaN = false →
      (pick x y).isNaN = false ∧ f (pick x y) = min (f x) (f y))
    {xs : List Float} (numbers : ∀ x ∈ xs, x.isNaN = false) {start : Float}
    (number : start.isNaN = false) :
    (xs.foldl pick start).isNaN = false ∧ f (xs.foldl pick start) ≤ f start ∧
      (∀ x ∈ xs, f (xs.foldl pick start) ≤ f x) ∧
      (f (xs.foldl pick start) = f start ∨ ∃ x ∈ xs, f (xs.foldl pick start) = f x) := by
  induction xs generalizing start with
  | nil => exact ⟨number, le_rfl, nofun, .inl rfl⟩
  | cons x xs ih =>
    obtain ⟨picked, value⟩ := picks number (numbers x List.mem_cons_self)
    obtain ⟨last, low, lowest, attained⟩ :=
      ih (fun y there => numbers y (List.mem_cons_of_mem _ there)) picked
    rw [value] at low attained
    refine ⟨last, low.trans (min_le_left _ _), ?_, ?_⟩
    · intro y there
      obtain rfl | there := List.mem_cons.1 there
      · exact low.trans (min_le_right _ _)
      · exact lowest y there
    · obtain same | ⟨y, there, same⟩ := attained
      · obtain first | first := min_choice (f start) (f x) <;> rw [first] at same
        · exact .inl same
        · exact .inr ⟨x, List.mem_cons_self, same⟩
      · exact .inr ⟨y, List.mem_cons_of_mem _ there, same⟩

theorem isNaN_infinity : infinity.isNaN = false ∧ (-infinity).isNaN = false := by
  decide +kernel

theorem extent_infinity : extent infinity = edge := rfl

variable {xs : List Float}

/-- The least of finite floats. -/
theorem foldl_lesser (finite : ∀ x ∈ xs, x.isFinite = true) (some : xs ≠ []) :
    (xs.foldl lesser infinity).isNaN = false ∧
      (∀ x ∈ xs, extent (xs.foldl lesser infinity) ≤ extent x) ∧
      ∃ x ∈ xs, extent (xs.foldl lesser infinity) = extent x := by
  have numbers (x) (there : x ∈ xs) : x.isNaN = false := isNaN_of_isFinite (finite x there)
  obtain ⟨number, -, lowest, attained⟩ := foldl_lowest extent_lesser numbers isNaN_infinity.1
  refine ⟨number, lowest, attained.resolve_left fun start => ?_⟩
  obtain ⟨x, there⟩ := List.exists_mem_of_ne_nil xs some
  have inside := (isFinite_iff_extent (numbers x there)).1 (finite x there)
  have low := lowest x there
  rw [start, extent_infinity] at low
  exact absurd (low.trans (le_abs_self _)) inside.not_ge

/-- The greatest of finite floats. -/
theorem foldl_greater (finite : ∀ x ∈ xs, x.isFinite = true) (some : xs ≠ []) :
    (xs.foldl greater (-infinity)).isNaN = false ∧
      (∀ x ∈ xs, extent x ≤ extent (xs.foldl greater (-infinity))) ∧
      ∃ x ∈ xs, extent (xs.foldl greater (-infinity)) = extent x := by
  have numbers (x) (there : x ∈ xs) : x.isNaN = false := isNaN_of_isFinite (finite x there)
  obtain ⟨number, -, highest, attained⟩ :=
    foldl_lowest (f := fun x => OrderDual.toDual (extent x)) extent_greater numbers isNaN_infinity.2
  refine ⟨number, highest, attained.resolve_left fun start => ?_⟩
  obtain ⟨x, there⟩ := List.exists_mem_of_ne_nil xs some
  have inside := (isFinite_iff_extent (numbers x there)).1 (finite x there)
  have high : extent x ≤ extent (xs.foldl greater (-infinity)) := highest x there
  have start : extent (xs.foldl greater (-infinity)) = extent (-infinity) := start
  rw [start, (extent_neg isNaN_infinity.1).2, extent_infinity] at high
  have reach := neg_le_abs (extent x)
  linarith

end TangledGraph.Rounding
