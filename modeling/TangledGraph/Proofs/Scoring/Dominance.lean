import TangledGraph.Proofs.Number.Operations
import TangledGraph.Proofs.Scoring.Matrix

/-!
# Dominance

One row dominates another if it is at least as good on every task, or better on
every task. Both relations compare floats, so that a row with an outcome that is not
a number neither dominates nor is dominated, not even by itself, and both are
transitive all the same. A row is scored by the number of other rows that it is
related to, which is what the scores have in common with the relations.
-/
namespace TangledGraph.Scoring

open Rounding

variable {a b c : Row} {m : Matrix} {n : Nat}

/-- Two rows of one width are compared entry by entry. -/
theorem all_zip_iff (related : Float → Float → Bool) (ha : a.length = n) (hb : b.length = n) :
    ((a.zip b).all fun (x, y) => related x y) = true ↔
      ∀ k < n, related (entry a k) (entry b k) := by
  induction a generalizing b n with
  | nil =>
    obtain rfl : 0 = n := ha
    simp
  | cons x xs ih =>
    obtain _ | ⟨y, ys⟩ := b
    · obtain rfl : 0 = n := hb
      cases ha
    · obtain rfl : xs.length + 1 = n := ha
      have rest := ih (b := ys) rfl (Nat.succ.inj hb)
      rw [List.zip_cons_cons, List.all_cons, Bool.and_eq_true, rest, Nat.forall_lt_succ_left]
      rfl

theorem weaklyDominates_iff (ha : a.length = n) (hb : b.length = n) :
    weaklyDominates a b = true ↔ ∀ k < n, entry b k ≤ entry a k := by
  have lengths : (a.length == b.length) = true := beq_iff_eq.2 (ha.trans hb.symm)
  rw [weaklyDominates, lengths, Bool.true_and, all_zip_iff (fun x y => decide (y ≤ x)) ha hb]
  simp only [decide_eq_true_eq]

theorem strictlyDominates_iff (ha : a.length = n) (hb : b.length = n) :
    strictlyDominates a b = true ↔ 0 < n ∧ ∀ k < n, entry b k < entry a k := by
  have lengths : (a.length == b.length) = true := beq_iff_eq.2 (ha.trans hb.symm)
  have tasks : (!a.isEmpty) = true ↔ 0 < n := by
    rw [← ha, List.length_pos_iff, Bool.not_eq_true', List.isEmpty_eq_false_iff]
  rw [strictlyDominates, lengths, Bool.and_true, Bool.and_eq_true, tasks,
    all_zip_iff (fun x y => decide (y < x)) ha hb]
  simp only [decide_eq_true_eq]

theorem weaklyDominates_trans (ha : a.length = n) (hb : b.length = n) (hc : c.length = n)
    (h : weaklyDominates a b = true) (h' : weaklyDominates b c = true) :
    weaklyDominates a c = true := by
  rw [weaklyDominates_iff ha hb] at h
  rw [weaklyDominates_iff hb hc] at h'
  rw [weaklyDominates_iff ha hc]
  exact fun k inside => float_le_trans (h' k inside) (h k inside)

theorem strictlyDominates_of_weakly (ha : a.length = n) (hb : b.length = n) (hc : c.length = n)
    (h : strictlyDominates a b = true) (h' : weaklyDominates b c = true) :
    strictlyDominates a c = true := by
  rw [strictlyDominates_iff ha hb] at h
  rw [weaklyDominates_iff hb hc] at h'
  rw [strictlyDominates_iff ha hc]
  exact ⟨h.1, fun k inside => float_lt_of_le_of_lt (h' k inside) (h.2 k inside)⟩

theorem weaklyDominates_of_strictly (ha : a.length = n) (hb : b.length = n)
    (h : strictlyDominates a b = true) : weaklyDominates a b = true := by
  rw [strictlyDominates_iff ha hb] at h
  rw [weaklyDominates_iff ha hb]
  exact fun k inside => float_le_of_lt (h.2 k inside)

theorem strictlyDominates_irrefl (ha : a.length = n) : strictlyDominates a a = false := by
  rw [Bool.eq_false_iff, ne_eq, strictlyDominates_iff ha ha]
  rintro ⟨tasks, better⟩
  exact float_lt_irrefl _ (better 0 tasks)

/-- A row that dominates or is dominated has only numbers. -/
theorem weaklyDominates_self (ha : a.length = n) (hb : b.length = n)
    (h : weaklyDominates a b = true) : weaklyDominates a a = true ∧ weaklyDominates b b = true := by
  rw [weaklyDominates_iff ha hb] at h
  rw [weaklyDominates_iff ha ha, weaklyDominates_iff hb hb]
  refine ⟨fun k inside => ?_, fun k inside => ?_⟩
  all_goals
    obtain ⟨hy, hx, -⟩ := le_iff_numbers.1 (h k inside)
  · exact le_iff_numbers.2 ⟨hx, hx, le_rfl⟩
  · exact le_iff_numbers.2 ⟨hy, hy, le_rfl⟩

/-- The count is smaller where the condition is stronger and leaves something out. -/
theorem countP_lt_of_imp {α : Type} {p q : α → Bool} {l : List α}
    (imp : ∀ x ∈ l, p x = true → q x = true) {x : α} (there : x ∈ l) (hq : q x = true)
    (hp : p x = false) : l.countP p < l.countP q := by
  obtain ⟨front, back, rfl⟩ := List.append_of_mem there
  have left : front.countP p ≤ front.countP q :=
    List.countP_mono_left fun y hy => imp y (List.mem_append_left _ hy)
  have right : back.countP p ≤ back.countP q :=
    List.countP_mono_left fun y hy => imp y (List.mem_append_right _ (List.mem_cons_of_mem _ hy))
  simp only [List.countP_append, List.countP_cons, hp, hq, if_true, Bool.false_eq_true, if_false]
  omega

theorem countP_zipIdx {α : Type} (p : α → Bool) (l : List α) (k : Nat) :
    (l.zipIdx k).countP (fun x => p x.1) = l.countP p := by
  rw [← Function.comp_def p, ← List.countP_map, List.zipIdx_map_fst]

/-- Without the place of `x`, all are counted but `x`. -/
theorem countP_elsewhere {α : Type} (p : α → Bool) (front : List α) (x : α) (back : List α) :
    (front ++ x :: back).zipIdx.countP (fun y => y.2 != front.length && p y.1) + (p x).toNat =
      (front ++ x :: back).countP p := by
  have left : front.zipIdx.countP (fun y => y.2 != front.length && p y.1) = front.countP p := by
    rw [← countP_zipIdx p front 0]
    refine List.countP_congr fun y place => ?_
    have apart : y.2 ≠ front.length := (List.snd_lt_of_mem_zipIdx place).ne
    rw [bne_iff_ne.2 apart, Bool.true_and]
  have right : (back.zipIdx (front.length + 1)).countP (fun y => y.2 != front.length && p y.1) =
      back.countP p := by
    rw [← countP_zipIdx p back (front.length + 1)]
    refine List.countP_congr fun y place => ?_
    have apart : y.2 ≠ front.length := (Nat.lt_of_succ_le (List.le_snd_of_mem_zipIdx place)).ne'
    rw [bne_iff_ne.2 apart, Bool.true_and]
  rw [List.zipIdx_append, List.zipIdx_cons, List.countP_append, List.countP_append,
    List.countP_cons, List.countP_cons, Nat.zero_add, left, right]
  cases held : p x <;> simp
  omega

/-- Of the rows that a row is related to, only itself is left out. -/
theorem countOthers_getElem? (related : Row → Row → Bool) {i : Nat} (there : m[i]? = some a) :
    ∃ others, (countOthers related m)[i]? = some others ∧
      others + (related a a).toNat = m.countP (related a) := by
  refine ⟨_, by rw [countOthers, List.getElem?_map, List.getElem?_zipIdx, there]; rfl, ?_⟩
  obtain ⟨front, back, rfl, rfl⟩ : ∃ front back, m = front ++ a :: back ∧ front.length = i := by
    obtain ⟨inside, rfl⟩ := List.getElem?_eq_some_iff.1 there
    refine ⟨m.take i, m.drop (i + 1), ?_, List.length_take_of_le inside.le⟩
    rw [List.getElem_cons_drop, List.take_append_drop]
  rw [← countP_elsewhere (related a) front a back]
  simp only [Nat.zero_add]

/-- Dominance lasts, so that what dominates counts all that the dominated counts. -/
theorem countP_weaklyDominates_le (rows : ∀ row ∈ m, row.length = n) (ha : a ∈ m) (hb : b ∈ m)
    (h : weaklyDominates a b = true) :
    m.countP (weaklyDominates b) ≤ m.countP (weaklyDominates a) :=
  List.countP_mono_left fun c hc =>
    weaklyDominates_trans (rows a ha) (rows b hb) (rows c hc) h

theorem countP_strictlyDominates_le (rows : ∀ row ∈ m, row.length = n) (ha : a ∈ m) (hb : b ∈ m)
    (h : weaklyDominates a b = true) :
    m.countP (fun c => strictlyDominates c a) ≤ m.countP (fun c => strictlyDominates c b) :=
  List.countP_mono_left fun c hc above =>
    strictlyDominates_of_weakly (rows c hc) (rows a ha) (rows b hb) above h

/-- The dominating row counts itself among the rows that it dominates, and the
dominated does not count it. -/
theorem countP_weaklyDominates_lt (rows : ∀ row ∈ m, row.length = n) (ha : a ∈ m) (hb : b ∈ m)
    (h : weaklyDominates a b = true) (only : weaklyDominates b a = false) :
    m.countP (weaklyDominates b) < m.countP (weaklyDominates a) :=
  countP_lt_of_imp (fun c hc => weaklyDominates_trans (rows a ha) (rows b hb) (rows c hc) h) ha
    (weaklyDominates_self (rows a ha) (rows b hb) h).1 only

theorem countP_strictlyDominates_lt (rows : ∀ row ∈ m, row.length = n) (ha : a ∈ m) (hb : b ∈ m)
    (h : strictlyDominates a b = true) :
    m.countP (fun c => strictlyDominates c a) < m.countP (fun c => strictlyDominates c b) := by
  have weakly := weaklyDominates_of_strictly (rows a ha) (rows b hb) h
  exact countP_lt_of_imp
    (fun c hc above => strictlyDominates_of_weakly (rows c hc) (rows a ha) (rows b hb) above weakly)
    ha h (strictlyDominates_irrefl (rows a ha))

/-- No row is above itself, so that all the rows above it are others. -/
theorem paretoNonDominated_getElem? (rows : ∀ row ∈ m, row.length = n) {i : Nat}
    (there : m[i]? = some a) :
    (paretoNonDominated m)[i]? =
      some (-Float.ofNat (m.countP fun c => strictlyDominates c a)) := by
  obtain ⟨others, counted, total⟩ := countOthers_getElem? (fun a b => strictlyDominates b a) there
  rw [strictlyDominates_irrefl (rows a (List.mem_of_getElem? there))] at total
  rw [paretoNonDominated, List.getElem?_map, counted, ← total]
  rfl

/-- **Scores respect dominance.** The scores of two rows are counts: the higher the
more rows are dominated, and the lower the more rows are above. A count is strictly
greater where dominance is one-sided, and so are the floats of counts up to the
number beyond which not every count has a float of its own. -/
theorem scores_respect_dominance (rows : ∀ row ∈ m, row.length = n) {i j : Nat}
    (hi : m[i]? = some a) (hj : m[j]? = some b) :
    ∃ p q r s : Nat,
      (paretoDominate m)[i]? = some (Float.ofNat p) ∧
      (paretoDominate m)[j]? = some (Float.ofNat q) ∧
      (paretoNonDominated m)[i]? = some (-Float.ofNat r) ∧
      (paretoNonDominated m)[j]? = some (-Float.ofNat s) ∧
      (weaklyDominates a b = true → weaklyDominates b a = false →
        q < p ∧ (m.length ≤ 2 ^ 53 → Float.ofNat q < Float.ofNat p)) ∧
      (weaklyDominates a b = true → weaklyDominates b a = true → p = q ∧ r = s) ∧
      (strictlyDominates a b = true →
        r < s ∧ (m.length ≤ 2 ^ 53 → -Float.ofNat s < -Float.ofNat r)) ∧
      (weaklyDominates a b = true → r ≤ s ∧ -Float.ofNat s ≤ -Float.ofNat r) := by
  have ha : a ∈ m := List.mem_of_getElem? hi
  have hb : b ∈ m := List.mem_of_getElem? hj
  obtain ⟨p, dominated, total⟩ := countOthers_getElem? weaklyDominates hi
  obtain ⟨q, dominated', total'⟩ := countOthers_getElem? weaklyDominates hj
  -- Each of the two rows is related to itself as soon as it takes part in dominance.
  have self (h : weaklyDominates a b = true) :
      p + 1 = m.countP (weaklyDominates a) ∧ q + 1 = m.countP (weaklyDominates b) := by
    obtain ⟨self, self'⟩ := weaklyDominates_self (rows a ha) (rows b hb) h
    rw [self] at total
    rw [self'] at total'
    exact ⟨total, total'⟩
  refine ⟨p, q, _, _, ?_, ?_, paretoNonDominated_getElem? rows hi,
    paretoNonDominated_getElem? rows hj, ?_, ?_, ?_, ?_⟩
  · rw [paretoDominate, List.getElem?_map, dominated]
    rfl
  · rw [paretoDominate, List.getElem?_map, dominated']
    rfl
  · intro h only
    obtain ⟨total, total'⟩ := self h
    have less := countP_weaklyDominates_lt rows ha hb h only
    have most := List.countP_le_length (p := weaklyDominates a) (l := m)
    exact ⟨by omega, fun small => ofNat_lt (by omega) (by omega)⟩
  · intro h h'
    obtain ⟨total, total'⟩ := self h
    have le := countP_weaklyDominates_le rows ha hb h
    have ge := countP_weaklyDominates_le rows hb ha h'
    exact ⟨by omega, (countP_strictlyDominates_le rows ha hb h).antisymm
      (countP_strictlyDominates_le rows hb ha h')⟩
  · intro h
    have less := countP_strictlyDominates_lt rows ha hb h
    have most := List.countP_le_length (p := fun c => strictlyDominates c b) (l := m)
    exact ⟨less, fun small => float_neg_lt (ofNat_lt less (most.trans small))⟩
  · intro h
    have le := countP_strictlyDominates_le rows ha hb h
    exact ⟨le, float_neg_le (ofNat_le le)⟩

/-- The first row is above the second on both tasks; the third has no number for one. -/
theorem scores_respect_dominance_of_three_rows :
    ∃ p q r s : Nat, q < p ∧ r < s ∧
      (paretoDominate [[3, 3], [2, 1], [0.0 / 0.0, 0]])[0]? = some (Float.ofNat p) ∧
      (paretoDominate [[3, 3], [2, 1], [0.0 / 0.0, 0]])[1]? = some (Float.ofNat q) ∧
      (paretoNonDominated [[3, 3], [2, 1], [0.0 / 0.0, 0]])[0]? = some (-Float.ofNat r) ∧
      (paretoNonDominated [[3, 3], [2, 1], [0.0 / 0.0, 0]])[1]? = some (-Float.ofNat s) := by
  obtain ⟨p, q, r, s, hp, hq, hr, hs, weak, -, strict, -⟩ :=
    scores_respect_dominance (m := [[3, 3], [2, 1], [0.0 / 0.0, 0]]) (n := 2) (by simp)
      (i := 0) (j := 1) rfl rfl
  have less := weak (by decide +kernel) (by decide +kernel)
  have fewer := strict (by decide +kernel)
  exact ⟨p, q, r, s, less.1, fewer.1, hp, hq, hr, hs⟩

end TangledGraph.Scoring
