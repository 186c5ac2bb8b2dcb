import TangledGraph.Proofs.Number.Extremes
import TangledGraph.Proofs.Number.Fractions
import TangledGraph.Proofs.Scoring.Dominance

/-!
# Normalization

The outcomes of a task are put on a scale from the least to the greatest. Differences
and quotients are rounded, but to the nearest number, which keeps their order: the
scale is kept to as long as the spread of the task is a finite float.
-/
namespace TangledGraph.Scoring

open Rounding

theorem rescale_of_flat {low high : Float} (flat : (high - low).abs < 1e-12) (x : Float) :
    rescale x (low, high) = 1.0 := if_pos flat

/-- An outcome between the bounds of its task, which are apart. -/
structure Between (low high x : Float) : Prop where
  low_finite : low.isFinite = true
  high_finite : high.isFinite = true
  finite : x.isFinite = true
  low_le : extent low ≤ extent x
  le_high : extent x ≤ extent high
  spread : (high - low).isFinite = true
  steep : ¬(high - low).abs < 1e-12

/-- How far an outcome is on its way, up to the rounding of the quotient. -/
def ratio (low high x : Float) : ℚ := extent (x - low) / extent (high - low)

namespace Between

variable {low high x y : Float}

theorem le_spread (h : Between low high x) : x - low ≤ high - low :=
  (rounds_sub h.finite h.low_finite).le (rounds_sub h.high_finite h.low_finite)
    (sub_le_sub_right h.le_high _)

theorem nonneg (h : Between low high x) : 0 ≤ extent (x - low) := by
  rw [(rounds_sub h.finite h.low_finite).extent_eq, ← nearest_zero]
  exact nearest_mono (sub_nonneg.2 h.low_le)

theorem spread_pos (h : Between low high x) : 0 < extent (high - low) := by
  have rounds := rounds_sub h.high_finite h.low_finite
  obtain ⟨number, value⟩ := extent_abs rounds.number
  have tolerance : 0 < extent 1e-12 := by
    have less : (0.0 : Float) < 1e-12 := by decide +kernel
    exact (lt_iff_numbers.1 less).2.2
  have steep := h.steep
  rw [lt_iff_extent number (by decide +kernel), value, not_lt] at steep
  have nonneg := h.nonneg.trans (le_iff_numbers.1 h.le_spread).2.2
  rw [abs_of_nonneg nonneg] at steep
  exact tolerance.trans_le steep

theorem way_finite (h : Between low high x) : (x - low).isFinite = true := by
  obtain ⟨number, number', le⟩ := le_iff_numbers.1 h.le_spread
  have spread := (isFinite_iff_extent number').1 h.spread
  rw [isFinite_iff_extent number, abs_of_nonneg h.nonneg]
  exact (le.trans (le_abs_self _)).trans_lt spread

theorem rounds (h : Between low high x) : Rounds (ratio low high x) (rescale x (low, high)) := by
  have unfolded : rescale x (low, high) = (x - low) / (high - low) := if_neg h.steep
  rw [unfolded]
  exact rounds_div h.way_finite h.spread h.spread_pos.ne'

theorem ratio_nonneg (h : Between low high x) : 0 ≤ ratio low high x :=
  div_nonneg h.nonneg h.spread_pos.le

theorem ratio_le_one (h : Between low high x) : ratio low high x ≤ 1 := by
  rw [ratio, div_le_one h.spread_pos]
  exact (le_iff_numbers.1 h.le_spread).2.2

theorem ratio_mono (hx : Between low high x) (hy : Between low high y)
    (le : extent x ≤ extent y) : ratio low high x ≤ ratio low high y := by
  refine div_le_div_of_nonneg_right ?_ hx.spread_pos.le
  rw [(rounds_sub hx.finite hx.low_finite).extent_eq,
    (rounds_sub hy.finite hy.low_finite).extent_eq]
  exact nearest_mono (sub_le_sub_right le _)

theorem ratio_of_low (h : Between low high x) (lowest : extent x = extent low) :
    ratio low high x = 0 := by
  rw [ratio, (rounds_sub h.finite h.low_finite).extent_eq, lowest, sub_self, nearest_zero, zero_div]

theorem ratio_of_high (h : Between low high x) (highest : extent x = extent high) :
    ratio low high x = 1 := by
  have same : extent (x - low) = extent (high - low) := by
    rw [(rounds_sub h.finite h.low_finite).extent_eq,
      (rounds_sub h.high_finite h.low_finite).extent_eq, highest]
  rw [ratio, same, div_self h.spread_pos.ne']

end Between

/-- An infinite spread is divided by itself at the top of the scale. -/
theorem rescale_of_infinite {low high x : Float} (hlow : low.isFinite = true)
    (hhigh : high.isFinite = true) (hx : x.isFinite = true) (highest : extent x = extent high)
    (infinite : (high - low).isFinite = false) : (rescale x (low, high)).isNaN = true := by
  have rounds := rounds_sub hhigh hlow
  have rounds' := rounds_sub hx hlow
  have same : extent (x - low) = extent (high - low) := by
    rw [rounds'.extent_eq, rounds.extent_eq, highest]
  have beyond : ¬|extent (high - low)| < edge := by
    rw [← isFinite_iff_extent rounds.number, infinite]
    nofun
  have infinite' : (x - low).isFinite = false := by
    rw [Bool.eq_false_iff, ne_eq, isFinite_iff_extent rounds'.number, same]
    exact beyond
  have steep : ¬(high - low).abs < 1e-12 := by
    obtain ⟨number, value⟩ := extent_abs rounds.number
    intro less
    have tolerance : extent 1e-12 ≤ 1 := by
      have le : (1e-12 : Float) ≤ 1.0 := by decide +kernel
      exact extent_one ▸ (le_iff_numbers.1 le).2.2
    have less := (lt_iff_numbers.1 less).2.2
    rw [value] at less
    linarith [one_lt_edge]
  have unfolded : rescale x (low, high) = (x - low) / (high - low) := if_neg steep
  rw [unfolded]
  exact isNaN_div_of_infinite rounds'.number rounds.number infinite' infinite

variable {m : Matrix} {k : Nat} {a b : Row}

/-- The spread of a task, as it is computed. -/
def spread (m : Matrix) (k : Nat) : Float := (bounds m k).2 - (bounds m k).1

theorem bounds_eq (m : Matrix) (k : Nat) :
    bounds m k = ((m.map (entry · k)).foldl lesser infinity,
      (m.map (entry · k)).foldl greater (-infinity)) := by
  unfold bounds
  generalize infinity = low
  generalize -low = high
  induction m generalizing low high with
  | nil => rfl
  | cons row rest ih => exact ih _ _

/-- The bounds of a task are what some rows have, and no row goes beyond them. -/
structure Bounded (m : Matrix) (k : Nat) : Prop where
  finite : ∀ a ∈ m, (entry a k).isFinite = true
  low_finite : (bounds m k).1.isFinite = true
  high_finite : (bounds m k).2.isFinite = true
  low_le : ∀ a ∈ m, extent (bounds m k).1 ≤ extent (entry a k)
  le_high : ∀ a ∈ m, extent (entry a k) ≤ extent (bounds m k).2
  lowest : ∃ a ∈ m, extent (bounds m k).1 = extent (entry a k)
  highest : ∃ a ∈ m, extent (bounds m k).2 = extent (entry a k)

theorem bounded (finite : ∀ row ∈ m, ∀ k, (entry row k).isFinite = true) (some : m ≠ []) (k : Nat) :
    Bounded m k := by
  have column : ∀ x ∈ m.map (entry · k), x.isFinite = true := by
    simpa using fun row there => finite row there k
  have numbers {a} (there : a ∈ m) := isNaN_of_isFinite (finite a there k)
  obtain ⟨low, low_le, lowest⟩ := foldl_lesser column (by simpa using some)
  obtain ⟨high, le_high, highest⟩ := foldl_greater column (by simpa using some)
  simp only [List.mem_map, forall_exists_index, and_imp, forall_apply_eq_imp_iff₂,
    exists_exists_and_eq_and] at low_le lowest le_high highest
  have bounds := bounds_eq m k
  obtain ⟨a, ha, least⟩ := lowest
  obtain ⟨b, hb, most⟩ := highest
  refine ⟨fun a there => finite a there k, ?_, ?_, ?_, ?_, ⟨a, ha, ?_⟩, b, hb, ?_⟩ <;> rw [bounds]
  · rw [isFinite_iff_extent low, least, ← isFinite_iff_extent (numbers ha)]
    exact finite a ha k
  · rw [isFinite_iff_extent high, most, ← isFinite_iff_extent (numbers hb)]
    exact finite b hb k
  · exact low_le
  · exact le_high
  · exact least
  · exact most

namespace Bounded

theorem between (h : Bounded m k) (narrow : (spread m k).isFinite = true)
    (steep : ¬(spread m k).abs < 1e-12) (ha : a ∈ m) :
    Between (bounds m k).1 (bounds m k).2 (entry a k) :=
  ⟨h.low_finite, h.high_finite, h.finite a ha, h.low_le a ha, h.le_high a ha, narrow, steep⟩

theorem inUnit (h : Bounded m k) (narrow : (spread m k).isFinite = true) (ha : a ∈ m) :
    InUnit (rescale (entry a k) (bounds m k)) := by
  by_cases flat : (spread m k).abs < 1e-12
  · rw [rescale_of_flat flat]
    exact ⟨rounds_zero.le rounds_one zero_le_one, rounds_one.le rounds_one le_rfl⟩
  · have between := h.between narrow flat ha
    exact ⟨rounds_zero.le between.rounds between.ratio_nonneg,
      between.rounds.le rounds_one between.ratio_le_one⟩

theorem mono (h : Bounded m k) (narrow : (spread m k).isFinite = true) (ha : a ∈ m) (hb : b ∈ m)
    (le : entry a k ≤ entry b k) :
    rescale (entry a k) (bounds m k) ≤ rescale (entry b k) (bounds m k) := by
  by_cases flat : (spread m k).abs < 1e-12
  · rw [rescale_of_flat flat, rescale_of_flat flat]
    exact rounds_one.le rounds_one le_rfl
  · have below := h.between narrow flat ha
    have above := h.between narrow flat hb
    exact below.rounds.le above.rounds (below.ratio_mono above (le_iff_numbers.1 le).2.2)

/-- The least outcomes are at zero, whatever its sign. -/
theorem eq_zero_of_least (h : Bounded m k) (narrow : (spread m k).isFinite = true)
    (steep : ¬(spread m k).abs < 1e-12) (ha : a ∈ m) (least : ∀ b ∈ m, entry a k ≤ entry b k) :
    (rescale (entry a k) (bounds m k) == 0.0) = true := by
  have between := h.between narrow steep ha
  obtain ⟨b, hb, low⟩ := h.lowest
  have lowest : extent (entry a k) = extent (bounds m k).1 :=
    ((le_iff_numbers.1 (least b hb)).2.2.trans_eq low.symm).antisymm (h.low_le a ha)
  have rounds := between.rounds
  rw [beq_iff_extent rounds.number rounds_zero.number, rounds.extent_eq,
    between.ratio_of_low lowest, nearest_zero, extent_zero]

theorem eq_one_of_greatest (h : Bounded m k) (narrow : (spread m k).isFinite = true)
    (steep : ¬(spread m k).abs < 1e-12) (ha : a ∈ m) (greatest : ∀ b ∈ m, entry b k ≤ entry a k) :
    (rescale (entry a k) (bounds m k) == 1.0) = true := by
  have between := h.between narrow steep ha
  obtain ⟨b, hb, high⟩ := h.highest
  have highest : extent (entry a k) = extent (bounds m k).2 :=
    (h.le_high a ha).antisymm (high.trans_le (le_iff_numbers.1 (greatest b hb)).2.2)
  have rounds := between.rounds
  rw [beq_iff_extent rounds.number rounds_one.number, rounds.extent_eq, rounds_one.extent_eq,
    between.ratio_of_high highest]

/-- Beyond the spreads that are finite some row has no place on the scale. -/
theorem isNaN_of_wide (h : Bounded m k) (wide : (spread m k).isFinite = false) :
    ∃ a ∈ m, (rescale (entry a k) (bounds m k)).isNaN = true := by
  obtain ⟨a, ha, high⟩ := h.highest
  exact ⟨a, ha, rescale_of_infinite h.low_finite h.high_finite (h.finite a ha) high.symm wide⟩

end Bounded

/-- What makes one number of a row of fractions, and is a fraction that is not lower
for a row that is nowhere lower. -/
structure Aggregates (summary : Row → Float) : Prop where
  inUnit : ∀ {columns : List ℕ} {f : ℕ → Float}, columns ≠ [] → (∀ k ∈ columns, InUnit (f k)) →
    InUnit (summary (columns.map f))
  mono : ∀ {columns : List ℕ} {f g : ℕ → Float}, columns ≠ [] → (∀ k ∈ columns, InUnit (f k)) →
    (∀ k ∈ columns, InUnit (g k)) → (∀ k ∈ columns, g k ≤ f k) →
    summary (columns.map g) ≤ summary (columns.map f)

theorem finite_of_units {columns : List ℕ} {f : ℕ → Float} (units : ∀ k ∈ columns, InUnit (f k)) :
    ∀ x ∈ columns.map f, x.isFinite = true := by
  simpa using fun k there => (units k there).finite

theorem aggregates_lesser : Aggregates fun row => row.foldl lesser infinity := by
  constructor
  · intro columns f some units
    obtain ⟨number, -, _, there, attained⟩ :=
      foldl_lesser (finite_of_units units) (by simpa using some)
    obtain ⟨k, hk, rfl⟩ := List.mem_map.1 there
    exact InUnit.of_extent number (attained ▸ (units k hk).nonneg) (attained ▸ (units k hk).le_one)
  · intro columns f g some hf hg le
    obtain ⟨number, -, _, there, attained⟩ :=
      foldl_lesser (finite_of_units hf) (by simpa using some)
    obtain ⟨number', lowest, -⟩ := foldl_lesser (finite_of_units hg) (by simpa using some)
    obtain ⟨k, hk, rfl⟩ := List.mem_map.1 there
    refine le_iff_numbers.2 ⟨number', number, ?_⟩
    rw [attained]
    exact (lowest _ (List.mem_map_of_mem hk)).trans (le_iff_numbers.1 (le k hk)).2.2

theorem aggregates_greater : Aggregates fun row => row.foldl greater (-infinity) := by
  constructor
  · intro columns f some units
    obtain ⟨number, -, _, there, attained⟩ :=
      foldl_greater (finite_of_units units) (by simpa using some)
    obtain ⟨k, hk, rfl⟩ := List.mem_map.1 there
    exact InUnit.of_extent number (attained ▸ (units k hk).nonneg) (attained ▸ (units k hk).le_one)
  · intro columns f g some hf hg le
    obtain ⟨number, highest, -⟩ := foldl_greater (finite_of_units hf) (by simpa using some)
    obtain ⟨number', -, _, there, attained⟩ :=
      foldl_greater (finite_of_units hg) (by simpa using some)
    obtain ⟨k, hk, rfl⟩ := List.mem_map.1 there
    refine le_iff_numbers.2 ⟨number', number, ?_⟩
    rw [attained]
    exact (le_iff_numbers.1 (le k hk)).2.2.trans (highest _ (List.mem_map_of_mem hk))

theorem aggregates_mean : Aggregates mean := by
  have units {columns : List ℕ} {f : ℕ → Float} (units : ∀ k ∈ columns, InUnit (f k)) :
      PartialSum columns.length ((columns.map f).foldl (· + ·) (-0.0)) := by
    have each : ∀ x ∈ columns.map f, InUnit x := by simpa using units
    have sum := PartialSum.start.foldl each
    rwa [List.length_map, Nat.zero_add] at sum
  have divisor (columns : List ℕ) : 0 < Nat.max columns.length 1 := by
    exact lt_of_lt_of_le one_pos (le_max_right _ _)
  constructor
  · intro columns f _ hf
    rw [mean, List.length_map]
    exact (units hf).inUnit_div (le_max_left _ _) (divisor columns)
  · intro columns f g _ hf hg le
    rw [mean, mean, List.length_map, List.length_map]
    refine (units hf).div_mono (units hg) ?_ (divisor columns)
    exact PartialSum.start.foldl_mono PartialSum.start (by decide +kernel) hf hg le

/-- A task whose outcomes have their places between the least and the greatest. -/
structure OnScale (m : Matrix) (k : Nat) : Prop where
  inUnit : ∀ a' ∈ normalize m, 0.0 ≤ entry a' k ∧ entry a' k ≤ 1.0
  mono : ∀ {i j : Nat} {a b a' b' : Row}, m[i]? = some a → m[j]? = some b →
    (normalize m)[i]? = some a' → (normalize m)[j]? = some b' →
    entry a k ≤ entry b k → entry a' k ≤ entry b' k
  flat : (spread m k).abs < 1e-12 → ∀ a' ∈ normalize m, entry a' k = 1.0
  least : ¬(spread m k).abs < 1e-12 → ∀ {i : Nat} {a a' : Row}, m[i]? = some a →
    (normalize m)[i]? = some a' → (∀ b ∈ m, entry a k ≤ entry b k) → (entry a' k == 0.0) = true
  greatest : ¬(spread m k).abs < 1e-12 → ∀ {i : Nat} {a a' : Row}, m[i]? = some a →
    (normalize m)[i]? = some a' → (∀ b ∈ m, entry b k ≤ entry a k) → (entry a' k == 1.0) = true

section Matrices

variable (rows : ∀ row ∈ m, row.length = width m)

include rows

theorem normalize_eq :
    normalize m = m.map fun a =>
      (List.range (width m)).map fun k => rescale (entry a k) (bounds m k) := by
  refine List.map_congr_left fun a ha => List.ext_getElem (by simp [rows a ha]) fun k inside _ => ?_
  have column : k < a.length := by
    rw [List.length_zipWith] at inside
    exact lt_of_lt_of_le inside (min_le_left _ _)
  have outcome : entry a k = a[k] := List.getD_eq_getElem _ _ column
  simp [outcome]

theorem entry_normalize {i : Nat} {a' : Row} (ha : m[i]? = some a)
    (ha' : (normalize m)[i]? = some a') (inside : k < width m) :
    entry a' k = rescale (entry a k) (bounds m k) := by
  rw [normalize_eq rows, List.getElem?_map, ha, Option.map_some, Option.some_inj] at ha'
  rw [← ha', entry, List.getD_eq_getElem _ _ (by simpa using inside), List.getElem_map,
    List.getElem_range]

/-- The modes that make one number of each row of normalized outcomes. -/
theorem scoreAlong_eq_aggregate {mode : Mode} (aggregating : mode ∈ [Mode.min, .max, .average])
    (order : List Nat) : ∃ summary, Aggregates summary ∧
      scoreAlong order mode m = .ok ((normalize m).map summary) := by
  simp only [List.mem_cons, List.not_mem_nil, or_false] at aggregating
  obtain rfl | rfl | rfl := aggregating
  · exact ⟨_, aggregates_lesser, by rw [scoreAlong, ifFull_ok rows]⟩
  · exact ⟨_, aggregates_greater, by rw [scoreAlong, ifFull_ok rows]⟩
  · exact ⟨_, aggregates_mean, by rw [scoreAlong, ifFull_ok rows]⟩

variable (finite : ∀ row ∈ m, ∀ x ∈ row, x.isFinite = true)

include finite

theorem bounded_of_column (inside : k < width m) : Bounded m k := by
  have some : m ≠ [] := by
    rintro rfl
    exact absurd inside (Nat.not_lt_zero k)
  exact bounded (fun row there => forall_entry (finite row there) (by decide +kernel)) some k

/-- All normalized outcomes are fractions just if no spread is too wide for a float. -/
theorem inUnit_iff_narrow : (∀ row ∈ normalize m, ∀ x ∈ row, InUnit x) ↔
    ∀ k < width m, (spread m k).isFinite = true := by
  rw [normalize_eq rows]
  simp only [List.mem_map, List.mem_range, forall_exists_index, and_imp, forall_apply_eq_imp_iff₂]
  constructor
  · intro units k inside
    by_contra wide
    have bounded := bounded_of_column rows finite inside
    obtain ⟨a, ha, nan⟩ := bounded.isNaN_of_wide (Bool.eq_false_iff.2 wide)
    have number := (le_iff_numbers.1 (units a ha k inside).1).2.1
    rw [nan] at number
    cases number
  · intro narrow a ha k inside
    exact (bounded_of_column rows finite inside).inUnit (narrow k inside) ha

theorem onScale (inside : k < width m) (narrow : (spread m k).isFinite = true) : OnScale m k := by
  have bounded := bounded_of_column rows finite inside
  have origin {a'} (there : a' ∈ normalize m) :
      ∃ a ∈ m, entry a' k = rescale (entry a k) (bounds m k) := by
    obtain ⟨i, place, rfl⟩ := List.mem_iff_getElem.1 there
    have place' : i < m.length := by simpa [normalize] using place
    exact ⟨m[i], List.getElem_mem _, entry_normalize rows (List.getElem?_eq_getElem place')
      (List.getElem?_eq_getElem place) inside⟩
  refine ⟨?_, ?_, ?_, ?_, ?_⟩
  · intro a' there
    obtain ⟨a, ha, marked⟩ := origin there
    exact marked ▸ bounded.inUnit narrow ha
  · intro i j a b a' b' ha hb ha' hb' le
    rw [entry_normalize rows ha ha' inside, entry_normalize rows hb hb' inside]
    exact bounded.mono narrow (List.mem_of_getElem? ha) (List.mem_of_getElem? hb) le
  · intro flat a' there
    obtain ⟨a, -, marked⟩ := origin there
    exact marked.trans (rescale_of_flat flat _)
  · intro steep i a a' ha ha' least
    rw [entry_normalize rows ha ha' inside]
    exact bounded.eq_zero_of_least narrow steep (List.mem_of_getElem? ha) least
  · intro steep i a a' ha ha' greatest
    rw [entry_normalize rows ha ha' inside]
    exact bounded.eq_one_of_greatest narrow steep (List.mem_of_getElem? ha) greatest

theorem aggregate_respects_dominance {summary : Row → Float} (aggregates : Aggregates summary)
    (tasks : 0 < width m) (narrow : ∀ k < width m, (spread m k).isFinite = true) :
    (∀ x ∈ (normalize m).map summary, InUnit x) ∧
      ∀ {i j : Nat} {a b : Row} {x y : Float}, m[i]? = some a → m[j]? = some b →
        ((normalize m).map summary)[i]? = some x → ((normalize m).map summary)[j]? = some y →
        weaklyDominates a b = true → y ≤ x := by
  have some : List.range (width m) ≠ [] := by simpa using tasks.ne'
  have units {a} (ha : a ∈ m) :
      ∀ k ∈ List.range (width m), InUnit (rescale (entry a k) (bounds m k)) := by
    intro k there
    have inside := List.mem_range.1 there
    exact (bounded_of_column rows finite inside).inUnit (narrow k inside) ha
  rw [normalize_eq rows, List.map_map]
  constructor
  · intro x there
    obtain ⟨a, ha, rfl⟩ := List.mem_map.1 there
    exact aggregates.inUnit some (units ha)
  · intro i j a b x y hi hj hx hy dominates
    rw [List.getElem?_map, hi, Option.map_some, Option.some_inj] at hx
    rw [List.getElem?_map, hj, Option.map_some, Option.some_inj] at hy
    have ha := List.mem_of_getElem? hi
    have hb := List.mem_of_getElem? hj
    rw [weaklyDominates_iff (rows a ha) (rows b hb)] at dominates
    rw [← hx, ← hy]
    refine aggregates.mono some (units ha) (units hb) fun k there => ?_
    have inside := List.mem_range.1 there
    exact (bounded_of_column rows finite inside).mono (narrow k inside) hb ha (dominates k inside)

/-- **Normalized outcomes.** Each task whose spread is a finite float is put on its scale,
and all normalized outcomes are from zero to one just if every task has such a spread.
Then so is the fitness in the modes that aggregate them, and a row that dominates
another is not less fit. -/
theorem normalize_on_scale :
    (normalize m).length = m.length ∧ (∀ row ∈ normalize m, row.length = width m) ∧
      (∀ k < width m, (spread m k).isFinite = true → OnScale m k) ∧
      ((∀ row ∈ normalize m, ∀ x ∈ row, 0.0 ≤ x ∧ x ≤ 1.0) ↔
        ∀ k < width m, (spread m k).isFinite = true) ∧
      (0 < width m → (∀ k < width m, (spread m k).isFinite = true) →
        ∀ mode ∈ [Mode.min, .max, .average], ∀ order, ∃ fitness,
          scoreAlong order mode m = .ok fitness ∧ fitness.length = m.length ∧
          (∀ x ∈ fitness, 0.0 ≤ x ∧ x ≤ 1.0) ∧
          ∀ {i j : Nat} {a b : Row} {x y : Float}, m[i]? = some a → m[j]? = some b →
            fitness[i]? = some x → fitness[j]? = some y → weaklyDominates a b = true → y ≤ x) := by
  refine ⟨by simp [normalize], ?_, fun k inside narrow => onScale rows finite inside narrow,
    inUnit_iff_narrow rows finite, ?_⟩
  · rw [normalize_eq rows]
    simp
  · intro tasks narrow mode aggregating order
    obtain ⟨summary, aggregates, scored⟩ := scoreAlong_eq_aggregate rows aggregating order
    exact ⟨_, scored, by simp [normalize],
      aggregate_respects_dominance rows finite aggregates tasks narrow⟩

end Matrices

/-- Two tasks, the first of them without a spread. -/
theorem normalize_on_scale_of_two_rows :
    OnScale [[2, 0], [2, 4]] 1 ∧ ∃ fitness, scoreAlong [] .average [[2, 0], [2, 4]] = .ok fitness ∧
      ∀ x ∈ fitness, 0.0 ≤ x ∧ x ≤ 1.0 := by
  have rows : ∀ row ∈ ([[2, 0], [2, 4]] : Matrix), row.length = width [[2, 0], [2, 4]] := by decide
  have narrow : ∀ k < width [[2, 0], [2, 4]], (spread [[2, 0], [2, 4]] k).isFinite = true := by
    decide +kernel
  obtain ⟨-, -, onScale, -, scores⟩ := normalize_on_scale rows (by decide +kernel)
  obtain ⟨fitness, scored, -, units, -⟩ := scores (by decide) narrow .average (by decide) []
  exact ⟨onScale 1 (by decide) (narrow 1 (by decide)), fitness, scored, units⟩

/-- The spread of finite outcomes may be too wide for a float. Then the greatest outcome
has no place on the scale, and the row that has it is less fit than the one below. -/
theorem normalize_not_on_scale_of_wide_spread :
    (∀ row ∈ ([[-1e308], [1e308]] : Matrix), ∀ x ∈ row, x.isFinite = true) ∧
      weaklyDominates [1e308] [-1e308] = true ∧
      (∃ x, (normalize [[-1e308], [1e308]])[1]? = some [x] ∧ ¬(0.0 ≤ x ∧ x ≤ 1.0)) ∧
      ∃ x y, scoreAlong [] .max [[-1e308], [1e308]] = .ok [y, x] ∧ x < y :=
  ⟨by decide +kernel, by decide +kernel, ⟨_, rfl, by decide +kernel⟩, _, _, rfl, by decide +kernel⟩

end TangledGraph.Scoring
