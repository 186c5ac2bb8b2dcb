import TangledGraph.Proofs.Scoring.Dominance

/-!
# The lexicographic mode

Rows of numbers are sorted along an order of tasks, and a row that stands level with
the one before it shares its rank. Since the order is total, the rank of a row is the
number of rows that are above it, wherever they stand in the matrix.
-/
namespace TangledGraph.Scoring

open Rounding

variable {a b c : Row} {m : Matrix} {n : Nat} {order : List Nat}

/-- Row `b` is above row `a` on the first task of an order that tells them apart. -/
def Above : List Nat → Row → Row → Prop
  | [], _, _ => False
  | k :: rest, b, a => entry a k < entry b k ∨ (entry a k == entry b k) = true ∧ Above rest b a

instance decidableAbove : (order : List Nat) → (b a : Row) → Decidable (Above order b a)
  | [], _, _ => isFalse id
  | _ :: rest, b, a =>
    have := decidableAbove rest b a
    inferInstanceAs (Decidable (_ ∨ _ ∧ _))

/-- The comparison that sorts rows tells which of them is above. -/
theorem standing_eq_gt_iff (ha : Numeric a) (hb : Numeric b) (order : List Nat) :
    standing order a b = .gt ↔ Above order b a := by
  induction order with
  | nil => simp [standing, Above]
  | cons k rest ih =>
    rw [standing_cons ha hb, Ordering.then_eq_gt, compare_gt_iff_gt, compare_eq_iff_eq, ih, Above,
      lt_iff (ha k) (hb k), beq_iff (ha k) (hb k), eq_comm (a := rankOf (entry a k))]

theorem standing_eq_lt_iff (ha : Numeric a) (hb : Numeric b) (order : List Nat) :
    standing order a b = .lt ↔ Above order a b := by
  rw [← standing_eq_gt_iff hb ha, standing_swap ha hb, Ordering.swap_eq_gt]

theorem Above.asymm (ha : Numeric a) (hb : Numeric b) (h : Above order a b) : ¬Above order b a := by
  intro h'
  have gt := (standing_eq_gt_iff ha hb order).2 h'
  have lt := (standing_eq_lt_iff ha hb order).2 h
  rw [gt] at lt
  cases lt

theorem not_above_self (ha : Numeric a) : ¬Above order a a := fun above =>
  above.asymm ha ha above

/-- What is above a row is above any row that is not above that one. -/
theorem above_of_above (ha : Numeric a) (hb : Numeric b) (hc : Numeric c) (h : Above order c b)
    (level : ¬Above order a b) : Above order c a := by
  by_contra absent
  rw [← standing_eq_gt_iff ha hc] at absent
  rw [← standing_eq_gt_iff hb ha] at level
  exact standing_trans hb ha hc level absent ((standing_eq_gt_iff hb hc order).2 h)

/-- Rows that are equal along an order are not told apart. -/
theorem not_above_of_level (ha : Numeric a) (hb : Numeric b)
    (level : ∀ k ∈ order, (entry a k == entry b k) = true) : ¬Above order b a := by
  induction order with
  | nil => exact id
  | cons k rest ih =>
    have same := (beq_iff (ha k) (hb k)).1 (level k List.mem_cons_self)
    rintro (less | ⟨-, above⟩)
    · exact ((lt_iff (ha k) (hb k)).1 less).ne same
    · exact ih (fun k hk => level k (List.mem_cons_of_mem _ hk)) above

/-- A row that is nowhere below another, and better on one task, is above it. -/
theorem above_of_better (le : ∀ k ∈ order, entry b k ≤ entry a k)
    (less : ∃ k ∈ order, entry b k < entry a k) : Above order a b := by
  induction order with
  | nil =>
    obtain ⟨k, hk, -⟩ := less
    exact absurd hk List.not_mem_nil
  | cons k rest ih =>
    obtain ⟨hb, ha, first⟩ := le_iff_numbers.1 (le k List.mem_cons_self)
    obtain better | same := lt_or_ge (extent (entry b k)) (extent (entry a k))
    · exact .inl ((lt_iff_extent hb ha).2 better)
    · obtain ⟨k', hk', better⟩ := less
      have later : k' ∈ rest := by
        obtain rfl | later := List.mem_cons.1 hk'
        · exact absurd (lt_iff_numbers.1 better).2.2 same.not_gt
        · exact later
      exact .inr ⟨(beq_iff_extent hb ha).2 (first.antisymm same),
        ih (fun k hk => le k (List.mem_cons_of_mem _ hk)) ⟨k', later, better⟩⟩

/-- No row is above one that comes before it. -/
def Descending (order : List Nat) (rows : List (Row × Nat)) : Prop :=
  rows.Pairwise fun x y => ¬Above order y.1 x.1

/-- In a sorted list only what comes before a row can be above it. -/
theorem Descending.countP_eq {front back : List (Row × Nat)} {x : Row × Nat} (hx : Numeric x.1)
    (sorted : Descending order (front ++ x :: back)) :
    (front ++ x :: back).countP (fun y => Above order y.1 x.1) =
      front.countP fun y => Above order y.1 x.1 := by
  obtain ⟨-, sorted, -⟩ := List.pairwise_append.1 sorted
  obtain ⟨later, -⟩ := List.pairwise_cons.1 sorted
  have none : (x :: back).countP (fun y => decide (Above order y.1 x.1)) = 0 := by
    refine List.countP_eq_zero.2 fun y there => ?_
    rw [decide_eq_true_eq]
    obtain rfl | there := List.mem_cons.1 there
    · exact not_above_self hx
    · exact later y there
  rw [List.countP_append, none, Nat.add_zero]

/-- The rank moves on to the position where a row no longer stands level with the one
before it, and that many rows are above it. -/
theorem rank_eq {front : List (Row × Nat)} {last next : Row × Nat}
    (numbers : ∀ x ∈ front ++ [last, next], Numeric x.1)
    (sorted : Descending order (front ++ [last, next])) :
    (if standing order last.1 next.1 == .eq then front.countP fun y => Above order y.1 last.1
      else front.length + 1) = (front ++ [last]).countP fun y => Above order y.1 next.1 := by
  have hlast : Numeric last.1 := numbers last (by simp)
  have hnext : Numeric next.1 := numbers next (by simp)
  have hfront (y) (there : y ∈ front) : Numeric y.1 := numbers y (by simp [there])
  obtain ⟨-, pair, earlier⟩ := List.pairwise_append.1 sorted
  have descends : ¬Above order next.1 last.1 := by simpa using pair
  cases stands : standing order last.1 next.1 with
  | gt => exact absurd ((standing_eq_gt_iff hlast hnext order).1 stands) descends
  | eq =>
    have level : ¬Above order last.1 next.1 := by
      rw [← standing_eq_lt_iff hlast hnext, stands]
      nofun
    have alone : [last].countP (fun y => decide (Above order y.1 next.1)) = 0 := by simp [level]
    rw [if_pos (beq_self_eq_true _), List.countP_append, alone, Nat.add_zero]
    refine List.countP_congr fun y there => ?_
    rw [decide_eq_true_eq, decide_eq_true_eq]
    exact ⟨fun above => above_of_above hnext hlast (hfront y there) above descends,
      fun above => above_of_above hlast hnext (hfront y there) above level⟩
  | lt =>
    have above := (standing_eq_lt_iff hlast hnext order).1 stands
    have all : (front ++ [last]).countP (fun y => decide (Above order y.1 next.1)) =
        (front ++ [last]).length := by
      refine List.countP_eq_length.2 fun y there => ?_
      rw [decide_eq_true_eq]
      obtain there | there := List.mem_append.1 there
      · by_contra absent
        exact earlier y there last (by simp)
          (above_of_above (hfront y there) hnext hlast above absent)
      · obtain rfl := List.mem_singleton.1 there
        exact above
    rw [if_neg nofun, all, List.length_append, List.length_singleton]

/-- Along a sorted list each row is given the number of rows that are above it. -/
theorem ranks_eq (front : List (Row × Nat)) (last : Row × Nat) (rest : List (Row × Nat))
    (numbers : ∀ x ∈ front ++ last :: rest, Numeric x.1)
    (sorted : Descending order (front ++ last :: rest)) :
    ranks order rest (some last.1) (front.length + 1)
        (front.countP fun y => Above order y.1 last.1) =
      rest.map fun x => (x.2, (front ++ last :: rest).countP fun y => Above order y.1 x.1) := by
  induction rest generalizing front last with
  | nil => rfl
  | cons next rest ih =>
    have split : front ++ last :: next :: rest = (front ++ [last]) ++ next :: rest := by simp
    have within : front ++ [last, next] <+: front ++ last :: next :: rest := by
      exact ⟨rest, by simp⟩
    have hnext : Numeric next.1 := numbers next (by simp)
    have rank := rank_eq (fun x there => numbers x (within.subset there))
      (sorted.sublist within.sublist)
    rw [split] at numbers sorted ⊢
    have tail := ih (front ++ [last]) next numbers sorted
    rw [List.length_append, List.length_singleton] at tail
    rw [List.map_cons, ← tail, sorted.countP_eq hnext, ← rank]
    rfl

/-- The number of rows of a matrix less the number of those that are above a row. -/
def placing (order : List Nat) (m : Matrix) (a : Row) : Nat :=
  m.length - m.countP fun b => Above order b a

theorem numeric_of_mem_zipIdx (numbers : ∀ row ∈ m, ∀ x ∈ row, x.isNaN = false) {x : Row × Nat}
    (there : x ∈ m.zipIdx) : Numeric x.1 :=
  numeric_of_forall (numbers x.1 (List.fst_mem_of_mem_zipIdx there))

theorem descending_ranking (numbers : ∀ row ∈ m, ∀ x ∈ row, x.isNaN = false) :
    Descending order (ranking order m) := by
  have numeric (x) (there : x ∈ m.zipIdx) : Numeric x.1 := numeric_of_mem_zipIdx numbers there
  refine (sorts_standing order numeric).pairwise.imp_of_mem fun {x y} hx hy stands => ?_
  rw [← standing_eq_gt_iff (numeric x (List.mem_mergeSort.1 hx))
    (numeric y (List.mem_mergeSort.1 hy))]
  exact bne_iff_ne.1 stands

/-- However a matrix is sorted, each place is given the number of rows above the row
there. -/
theorem ranks_of_descending (numbers : ∀ row ∈ m, ∀ x ∈ row, x.isNaN = false)
    {rows : List (Row × Nat)} (perm : rows.Perm m.zipIdx) (sorted : Descending order rows) :
    ranks order rows none 0 0 =
      rows.map fun x => (x.2, m.countP fun b => Above order b x.1) := by
  have numeric (x) (there : x ∈ rows) : Numeric x.1 :=
    numeric_of_mem_zipIdx numbers (perm.mem_iff.1 there)
  have counts (a : Row) : rows.countP (fun y => decide (Above order y.1 a)) =
      m.countP fun b => Above order b a := by
    rw [perm.countP_eq]
    exact countP_zipIdx (fun b => decide (Above order b a)) m 0
  simp only [← counts]
  cases rows with
  | nil => rfl
  | cons first rest =>
    rw [← List.nil_append (first :: rest)] at sorted numeric
    have tail := ranks_eq [] first rest numeric sorted
    have top := sorted.countP_eq (numeric first (by simp))
    rw [List.nil_append] at tail top
    rw [List.map_cons, ← tail, top]
    rfl

/-- A key whose entries all agree is looked up in whatever order they are listed. -/
theorem lookup_eq_some {α : Type} {l : List (Nat × α)} {i : Nat} {v : α} (there : (i, v) ∈ l)
    (only : ∀ w, (i, w) ∈ l → w = v) : l.lookup i = some v := by
  have listed : (l.lookup i).isSome = true :=
    List.lookup_isSome_iff.2 ⟨(i, v), there, beq_self_eq_true i⟩
  obtain ⟨w, found⟩ := Option.isSome_iff_exists.1 listed
  obtain ⟨front, back, rfl, -⟩ := List.lookup_eq_some_iff.1 found
  rw [found, only w (by simp)]

/-- However a matrix is sorted, a row finds the number of rows above it. -/
theorem lookup_ranks (numbers : ∀ row ∈ m, ∀ x ∈ row, x.isNaN = false)
    {rows : List (Row × Nat)} (perm : rows.Perm m.zipIdx) (sorted : Descending order rows)
    {i : Nat} (row : m[i]? = some a) :
    (ranks order rows none 0 0).lookup i = some (m.countP fun b => Above order b a) := by
  rw [ranks_of_descending numbers perm sorted]
  refine lookup_eq_some ?_ fun w there => ?_
  · exact List.mem_map.2 ⟨(a, i), perm.mem_iff.2 (List.mk_mem_zipIdx_iff_getElem?.2 row), rfl⟩
  · obtain ⟨⟨row', j⟩, listed, entry⟩ := List.mem_map.1 there
    obtain ⟨rfl, rfl⟩ := Prod.mk.inj entry
    have row' := List.mk_mem_zipIdx_iff_getElem?.1 (perm.mem_iff.1 listed)
    rw [row, Option.some_inj] at row'
    rw [row']

/-- The fitness of a row is its placing. -/
theorem lexicase_eq (numbers : ∀ row ∈ m, ∀ x ∈ row, x.isNaN = false) :
    lexicase order m = m.map fun a => Float.ofNat (placing order m a) := by
  refine List.ext_getElem (by simp [lexicase]) fun i inside inside' => ?_
  have place : i < m.length := by simpa using inside'
  have found : (ranks order (ranking order m) none 0 0).lookup i =
      some (m.countP fun b => Above order b m[i]) :=
    lookup_ranks numbers (List.mergeSort_perm ..) (descending_ranking numbers)
      (List.getElem?_eq_getElem place)
  simp only [lexicase, List.getElem_map, List.getElem_range, found, Option.getD_some, placing]

theorem ifRankable_eq (rows : ∀ row ∈ m, row.length = n)
    (numbers : ∀ row ∈ m, ∀ x ∈ row, x.isNaN = false) (columns : ∀ k ∈ order, k < n) :
    ifRankable order m = .ok (m.map fun a => Float.ofNat (placing order m a)) := by
  have rankable : isRankable order m = true :=
    isRankable_of_columns fun row there k hk => rows row there ▸ columns k hk
  rw [ifRankable, rankable, if_pos rfl, lexicase_eq numbers]
  rfl

theorem placing_eq_of_level (numbers : ∀ row ∈ m, Numeric row) (ha : a ∈ m) (hb : b ∈ m)
    (level : ∀ k ∈ order, (entry a k == entry b k) = true) :
    placing order m a = placing order m b := by
  have level' : ∀ k ∈ order, (entry b k == entry a k) = true := fun k hk =>
    (beq_iff (numbers b hb k) (numbers a ha k)).2
      ((beq_iff (numbers a ha k) (numbers b hb k)).1 (level k hk)).symm
  have down := not_above_of_level (numbers a ha) (numbers b hb) level
  have up := not_above_of_level (numbers b hb) (numbers a ha) level'
  have same : m.countP (fun c => decide (Above order c a)) = m.countP fun c => Above order c b := by
    refine List.countP_congr fun c hc => ?_
    rw [decide_eq_true_eq, decide_eq_true_eq]
    exact ⟨fun above => above_of_above (numbers b hb) (numbers a ha) (numbers c hc) above down,
      fun above => above_of_above (numbers a ha) (numbers b hb) (numbers c hc) above up⟩
  rw [placing, same, placing]

/-- Fewer rows are above the better of two rows, since the better is above the other. -/
theorem placing_lt_of_better (numbers : ∀ row ∈ m, Numeric row) (ha : a ∈ m) (hb : b ∈ m)
    (le : ∀ k ∈ order, entry b k ≤ entry a k) (less : ∃ k ∈ order, entry b k < entry a k) :
    placing order m b < placing order m a := by
  have above := above_of_better le less
  have fewer : m.countP (fun c => decide (Above order c a)) <
      m.countP fun c => Above order c b := by
    refine countP_lt_of_imp (fun c hc higher => ?_) ha (decide_eq_true above)
      (decide_eq_false (not_above_self (numbers a ha)))
    rw [decide_eq_true_eq] at higher ⊢
    exact above_of_above (numbers b hb) (numbers a ha) (numbers c hc) higher
      (above.asymm (numbers a ha) (numbers b hb))
  have most := List.countP_le_length (p := fun c => decide (Above order c b)) (l := m)
  unfold placing
  omega

/-- **Fitness in the lexicographic mode** is the number of rows less the number of those
above, so that rows that are equal along the order share it, rows in other places take
it with them, and along all tasks a row that dominates another is fitter. The placings
differ however many rows there are; their floats do up to the number beyond which not
every count has a float of its own. -/
theorem lexicase_counts_rows_above (rows : ∀ row ∈ m, row.length = n)
    (numbers : ∀ row ∈ m, ∀ x ∈ row, x.isNaN = false) (columns : ∀ k ∈ order, k < n) :
    ∃ fitness, ifRankable order m = .ok fitness ∧
      fitness = m.map (fun a => Float.ofNat (m.length - m.countP fun b => Above order b a)) ∧
      (∀ (i j : Nat) (a b : Row), m[i]? = some a → m[j]? = some b →
        (∀ k ∈ order, (entry a k == entry b k) = true) → fitness[i]? = fitness[j]?) ∧
      (∀ places : List Nat, places.Perm (List.range m.length) →
        ifRankable order (places.filterMap (m[·]?)) = .ok (places.filterMap (fitness[·]?))) ∧
      ((∀ k < n, k ∈ order) → ∀ (i j : Nat) (a b : Row), m[i]? = some a → m[j]? = some b →
        weaklyDominates a b = true → (∃ k < n, entry b k < entry a k) →
        ∃ p q, fitness[i]? = some (Float.ofNat p) ∧ fitness[j]? = some (Float.ofNat q) ∧
          q < p ∧ (m.length ≤ 2 ^ 53 → Float.ofNat q < Float.ofNat p)) := by
  have numeric (row) (there : row ∈ m) : Numeric row := numeric_of_forall (numbers row there)
  refine ⟨_, ifRankable_eq rows numbers columns, rfl, ?_, ?_, ?_⟩
  · intro i j a b hi hj level
    have same := placing_eq_of_level numeric (List.mem_of_getElem? hi) (List.mem_of_getElem? hj)
      level
    rw [List.getElem?_map, List.getElem?_map, hi, hj, Option.map_some, Option.map_some, same]
  · intro places perm
    have moved : (places.filterMap (m[·]?)).Perm m := by
      have all : (List.range m.length).map (m[·]?) = m.map some :=
        List.ext_getElem (by simp) fun i inside _ => by simp
      have kept : (List.range m.length).filterMap (m[·]?) = m := by
        rw [← Function.id_comp (m[·]?), ← List.filterMap_map, all, List.filterMap_map]
        exact List.filterMap_some
      exact (perm.filterMap _).trans (.of_eq kept)
    have fitness_eq (a : Row) : placing order (places.filterMap (m[·]?)) a = placing order m a := by
      rw [placing, moved.length_eq, moved.countP_eq, placing]
    rw [ifRankable_eq (fun row there => rows row (moved.mem_iff.1 there))
      (fun row there => numbers row (moved.mem_iff.1 there)) columns]
    simp only [fitness_eq, List.map_filterMap, List.getElem?_map]
  · intro every i j a b hi hj dominates better
    have ha := List.mem_of_getElem? hi
    have hb := List.mem_of_getElem? hj
    rw [weaklyDominates_iff (rows a ha) (rows b hb)] at dominates
    obtain ⟨k, hk, better⟩ := better
    have less := placing_lt_of_better numeric ha hb (fun k hk => dominates k (columns k hk))
      ⟨k, every k hk, better⟩
    refine ⟨_, _, by rw [List.getElem?_map, hi]; rfl, by rw [List.getElem?_map, hj]; rfl, less, ?_⟩
    exact fun small => ofNat_lt less ((Nat.sub_le _ _).trans small)

/-- The second row dominates the third, and is fitter along an order that repeats a task. -/
theorem lexicase_counts_rows_above_of_three_rows :
    ∃ fitness p q, ifRankable [1, 0, 1] [[1, 5], [3, 3], [2, 2]] = .ok fitness ∧
      fitness[1]? = some (Float.ofNat p) ∧ fitness[2]? = some (Float.ofNat q) ∧
      Float.ofNat q < Float.ofNat p := by
  have columns : ∀ k ∈ [1, 0, 1], k < 2 := by decide
  obtain ⟨fitness, scored, -, -, -, better⟩ :=
    lexicase_counts_rows_above (m := [[1, 5], [3, 3], [2, 2]]) (n := 2) (by simp)
      (by decide +kernel) columns
  obtain ⟨p, q, hp, hq, -, less⟩ := better (by decide) 1 2 _ _ rfl rfl (by decide +kernel)
    ⟨0, by decide, by decide +kernel⟩
  exact ⟨fitness, p, q, scored, hp, hq, less (by decide)⟩

end TangledGraph.Scoring
