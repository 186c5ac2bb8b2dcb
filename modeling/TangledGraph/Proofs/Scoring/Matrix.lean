import Mathlib.Data.List.GetD
import TangledGraph.Proofs.Number.Order
import TangledGraph.Proofs.Random.Safety
import TangledGraph.Scoring

/-!
# Scoring of full matrices

A matrix whose rows are all of one width is full and can be ranked along any
order of its columns. So its rows can be scored in every mode, and the champions
of its columns are places of its rows.
-/
namespace TangledGraph.Scoring

open Draw

variable {m : Matrix} {n : Nat}

theorem width_le (rows : ∀ row ∈ m, row.length = n) : ∀ row ∈ m, width m ≤ row.length := by
  intro row there
  cases m with
  | nil => simp at there
  | cons first rest =>
    have head : width (first :: rest) = n := rows first List.mem_cons_self
    exact Nat.le_of_eq (head.trans (rows row there).symm)

theorem isFull_of_rows (rows : ∀ row ∈ m, row.length = n) : isFull m = true := by
  rw [isFull, List.all_eq_true]
  intro row there
  exact decide_eq_true (width_le rows row there)

/-- Rows can be ranked along columns that all of them have. -/
theorem isRankable_of_columns {order : List Nat}
    (columns : ∀ row ∈ m, ∀ k ∈ order, k < row.length) : isRankable order m = true := by
  have inside : order.all (fun k => m.all (k < ·.length)) = true := by
    simp only [List.all_eq_true, decide_eq_true_eq]
    exact fun k hk row there => columns row there k hk
  rw [isRankable, inside, Bool.true_or]

/-- Tasks in any order are columns of every row. -/
theorem isRankable_of_rows (rows : ∀ row ∈ m, row.length = n) {order : List Nat}
    (columns : order.Perm (List.range (width m))) : isRankable order m = true := by
  refine isRankable_of_columns fun row there k hk => ?_
  have column : k < width m := List.mem_range.1 (columns.mem_iff.1 hk)
  exact Nat.lt_of_lt_of_le column (width_le rows row there)

theorem ifFull_ok {α : Type} (rows : ∀ row ∈ m, row.length = n) (result : Matrix → α) :
    ifFull m result = .ok (result m) := by
  rw [ifFull, if_pos (isFull_of_rows rows)]
  rfl

theorem scoreAlong_ok (rows : ∀ row ∈ m, row.length = n) {mode : Mode} {order : List Nat}
    (columns : mode = .lexicase → order.Perm (List.range (width m))) :
    ∃ fitness, scoreAlong order mode m = .ok fitness := by
  cases mode with
  | single | paretoDominate | paretoNonDominated => exact ⟨_, rfl⟩
  | min | max | average =>
    unfold scoreAlong
    exact ⟨_, ifFull_ok rows _⟩
  | lexicase =>
    simp only [scoreAlong, ifRankable, isRankable_of_rows rows (columns rfl), if_true]
    exact ⟨_, rfl⟩

/-- Rows of one width can be scored in every mode. -/
theorem score_safe {stalls : Stream → Prop} (stuck : ∀ s : Stream, s.Stuck → stalls s)
    (rows : ∀ row ∈ m, row.length = n) (mode : Mode) :
    Safe stalls (score mode m) fun _ => True := by
  have order : Safe stalls (taskOrder mode m) fun order =>
      mode = .lexicase → order.Perm (List.range (width m)) := by
    cases mode with
    | lexicase => exact (shuffle_safe stuck _).mono fun _ columns _ => columns
    | single | min | max | average | paretoDominate | paretoNonDominated =>
      exact Safe.pure (by simp)
  refine order.bind fun order columns => ?_
  obtain ⟨fitness, scored⟩ := scoreAlong_ok rows columns
  exact Safe.lift scored trivial

theorem eq_of_ifFull {α : Type} {result : Matrix → α} {a : α} (h : ifFull m result = .ok a) :
    a = result m := by
  unfold ifFull at h
  split at h
  · exact (pure_eq_ok.1 h).symm
  · exact absurd h throw_ne_ok

theorem length_of_scoreAlong {order : List Nat} {mode : Mode} {fitness : List Float}
    (h : scoreAlong order mode m = .ok fitness) : fitness.length = m.length := by
  cases mode with
  | single => simp [← pure_eq_ok.1 h]
  | min | max | average =>
    simp only [scoreAlong] at h
    simp [eq_of_ifFull h, normalize]
  | paretoDominate | paretoNonDominated =>
    simp [← pure_eq_ok.1 h, paretoDominate, paretoNonDominated, countOthers]
  | lexicase =>
    simp only [scoreAlong, ifRankable] at h
    split at h
    · simp [← pure_eq_ok.1 h, lexicase]
    · exact absurd h throw_ne_ok

/-- There is a score for each row. -/
theorem score_yields (mode : Mode) (m : Matrix) :
    Yields (score mode m) fun fitness => fitness.length = m.length :=
  Yields.skip fun _ => Yields.lift fun _ => length_of_scoreAlong

/-- A champion is the place of a row. -/
theorem champion?_lt {k i : Nat} (h : champion? m k = some i) : i < m.length := by
  obtain ⟨leader, chosen, rfl⟩ := Option.map_eq_some_iff.1 h
  let better := fun best (candidate : Row × Nat) =>
    match best with
    | none => some candidate
    | some (leader : Row × Nat) =>
      if entry leader.1 k < entry candidate.1 k then some candidate else best
  have inside : ∀ leader ∈ m.zipIdx.foldl better none, leader.2 < m.length := by
    refine List.foldlRecOn m.zipIdx better (b := none)
      (motive := fun best => ∀ leader ∈ best, leader.2 < m.length) (by simp)
      fun best kept candidate there => ?_
    have place : candidate.2 < m.length := List.snd_lt_of_mem_zipIdx there
    cases best with
    | none => simpa [better] using place
    | some previous =>
      simp only [better]
      split
      · simpa using place
      · exact kept
  exact inside leader chosen

theorem elites_lt : ∀ i ∈ elites m, i < m.length := by
  refine List.foldlRecOn _ _ (motive := fun found => ∀ i ∈ found, i < m.length)
    (fun _ => nofun) fun found kept champion there => ?_
  obtain ⟨k, -, chosen⟩ := List.mem_filterMap.1 there
  have place : champion < m.length := champion?_lt chosen
  split
  · exact kept
  · intro i hi
    rw [List.mem_append, List.mem_singleton] at hi
    obtain old | rfl := hi
    · exact kept i old
    · exact place

open Rounding

/-- What holds of the outcomes of a row and of zero holds of every entry. -/
theorem forall_entry {property : Float → Prop} {row : Row} (all : ∀ x ∈ row, property x)
    (zero : property 0.0) (k : Nat) : property (entry row k) := by
  by_cases inside : k < row.length
  · have there : entry row k = row[k] := List.getD_eq_getElem _ _ inside
    exact there ▸ all _ (List.getElem_mem inside)
  · have beyond : entry row k = 0.0 := List.getD_eq_default _ _ (Nat.not_lt.1 inside)
    exact beyond ▸ zero

/-- No outcome that is looked at fails to be a number. -/
def Numeric (row : Row) : Prop := ∀ k, (entry row k).isNaN = false

theorem numeric_of_forall {row : Row} (numbers : ∀ x ∈ row, x.isNaN = false) : Numeric row :=
  forall_entry numbers rfl

/-- The first task decides by the places of the outcomes. -/
theorem standing_cons {a b : Row} (ha : Numeric a) (hb : Numeric b) (k : Nat) (rest : List Nat) :
    standing (k :: rest) a b =
      (compare (rankOf (entry b k)) (rankOf (entry a k))).then (standing rest a b) := by
  simp only [standing, lt_iff (ha k) (hb k), lt_iff (hb k) (ha k)]
  obtain less | same | more := lt_trichotomy (rankOf (entry b k)) (rankOf (entry a k))
  · rw [if_pos less, compare_lt_iff_lt.2 less, Ordering.lt_then]
  · rw [same, if_neg (lt_irrefl _), if_neg (lt_irrefl _), compare_eq_iff_eq.2 rfl, Ordering.eq_then]
  · rw [if_neg more.asymm, if_pos more, compare_gt_iff_gt.2 more, Ordering.gt_then]

theorem standing_swap {a b : Row} (ha : Numeric a) (hb : Numeric b) (order : List Nat) :
    standing order b a = (standing order a b).swap := by
  induction order with
  | nil => rfl
  | cons k rest ih =>
    have first : compare (rankOf (entry a k)) (rankOf (entry b k)) =
        (compare (rankOf (entry b k)) (rankOf (entry a k))).swap := Std.OrientedCmp.eq_swap
    rw [standing_cons ha hb, standing_cons hb ha, ih, Ordering.swap_then, first]

theorem standing_trans {a b c : Row} (ha : Numeric a) (hb : Numeric b) (hc : Numeric c)
    {order : List Nat} (h : standing order a b ≠ .gt) (h' : standing order b c ≠ .gt) :
    standing order a c ≠ .gt := by
  induction order with
  | nil => exact h
  | cons k rest ih =>
    rw [standing_cons ha hb, ne_eq, Ordering.then_eq_gt, compare_gt_iff_gt, compare_eq_iff_eq] at h
    rw [standing_cons hb hc, ne_eq, Ordering.then_eq_gt, compare_gt_iff_gt, compare_eq_iff_eq] at h'
    rw [standing_cons ha hc, ne_eq, Ordering.then_eq_gt, compare_gt_iff_gt, compare_eq_iff_eq]
    have first := not_lt.1 fun more => h (.inl more)
    have second := not_lt.1 fun more => h' (.inl more)
    rintro (more | ⟨same, last⟩)
    · exact absurd (second.trans first) (not_le.2 more)
    · have level : rankOf (entry b k) = rankOf (entry a k) :=
        le_antisymm first (same ▸ second)
      exact ih (fun gt => h (.inr ⟨level, gt⟩))
        (fun gt => h' (.inr ⟨same.trans level.symm, gt⟩)) last

/-- Rows of numbers can be sorted along any order of tasks. -/
theorem sorts_standing (order : List Nat) {rows : List (Row × Nat)}
    (numbers : ∀ a ∈ rows, Numeric a.1) :
    Sorts (fun a b => standing order a.1 b.1 != .gt) rows := by
  constructor
  · intro a ha b hb
    rw [standing_swap (numbers a ha) (numbers b hb)]
    cases standing order a.1 b.1 <;> rfl
  · intro a ha b hb c hc h h'
    rw [bne_iff_ne] at h h' ⊢
    exact standing_trans (numbers a ha) (numbers b hb) (numbers c hc) h h'

end TangledGraph.Scoring
