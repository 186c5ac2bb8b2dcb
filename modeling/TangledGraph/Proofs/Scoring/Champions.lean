import Mathlib.Data.List.MinMax
import TangledGraph.Proofs.Scoring.Matrix

/-!
# Champions

The champion of a task is the earliest of the rows with the greatest outcome. The
champions of the tasks are listed once each, in the order of the first task that
each of them wins.
-/
namespace TangledGraph.Scoring

open Rounding

variable {m : Matrix}

/-- The outcome of a candidate on a task. -/
def cell (m : Matrix) (i k : Nat) : Float := entry (m.getD i []) k

theorem isNaN_cell (numbers : ∀ row ∈ m, Numeric row) (i k : Nat) : (cell m i k).isNaN = false := by
  by_cases inside : i < m.length
  · have there : m.getD i [] = m[i] := List.getD_eq_getElem _ _ inside
    rw [cell, there]
    exact numbers _ (List.getElem_mem inside) k
  · have beyond : m.getD i [] = [] := List.getD_eq_default _ _ (Nat.not_lt.1 inside)
    have nothing : Numeric [] := numeric_of_forall nofun
    rw [cell, beyond]
    exact nothing k

theorem zipIdx_eq_map_range (m : Matrix) :
    m.zipIdx = (List.range m.length).map fun i => (m.getD i [], i) := by
  refine List.ext_getElem (by simp) fun i inside _ => ?_
  rw [List.length_zipIdx] at inside
  simp only [List.getElem_zipIdx, List.getElem_map, List.getElem_range, Nat.zero_add,
    List.getD_eq_getElem _ _ inside]

/-- The first row with the best outcome is the first place with the greatest one. -/
theorem champion?_eq_argmax (numbers : ∀ row ∈ m, Numeric row) (k : Nat) :
    champion? m k = (List.range m.length).argmax fun i => rankOf (cell m i k) := by
  let seat : Option Nat → Option (Row × Nat) := Option.map fun i => (m.getD i [], i)
  rw [champion?, zipIdx_eq_map_range, List.foldl_map]
  refine (congrArg (Option.map Prod.snd) (@List.foldl_hom _ _ _ seat
    (List.argAux fun j i => rankOf (cell m i k) < rankOf (cell m j k)) _ (List.range m.length) none
    fun best i => ?_)).trans ?_
  · cases best with
    | none => rfl
    | some j =>
      have less : entry (m.getD j []) k < entry (m.getD i []) k ↔
          rankOf (cell m j k) < rankOf (cell m i k) :=
        lt_iff (isNaN_cell numbers j k) (isNaN_cell numbers i k)
      simp only [seat, Option.map_some, List.argAux, less]
      split <;> rfl
  · rw [Option.map_map]
    exact Option.map_id_apply

/-- A candidate is the earliest one with the greatest outcome on a task. -/
structure Leads (m : Matrix) (k i : Nat) : Prop where
  there : i < m.length
  best : ∀ j < m.length, cell m j k ≤ cell m i k
  first : ∀ j < i, cell m j k < cell m i k

theorem champion?_eq_some_iff (numbers : ∀ row ∈ m, Numeric row) {k i : Nat} :
    champion? m k = some i ↔ Leads m k i := by
  have number (j : Nat) := isNaN_cell numbers j k
  have place {j : Nat} (inside : j < m.length) : (List.range m.length).idxOf j = j := by
    have there := List.nodup_range.idxOf_getElem j (by rwa [List.length_range])
    rwa [List.getElem_range] at there
  rw [champion?_eq_argmax numbers, ← Option.mem_def, List.mem_argmax_iff]
  simp only [List.mem_range]
  constructor
  · rintro ⟨there, best, first⟩
    refine ⟨there, fun j inside => (le_iff (number j) (number i)).2 (best j inside),
      fun j earlier => (lt_iff (number j) (number i)).2 (not_le.1 fun level => ?_)⟩
    have inside : j < m.length := earlier.trans there
    have later := first j inside level
    rw [place there, place inside] at later
    omega
  · rintro ⟨there, best, first⟩
    refine ⟨there, fun j inside => (le_iff (number j) (number i)).1 (best j inside),
      fun j inside level => ?_⟩
    rw [place there, place inside]
    by_contra earlier
    have less := (lt_iff (number j) (number i)).1 (first j (Nat.lt_of_not_le earlier))
    exact absurd level (not_le.2 less)

/-- Where there are rows, every task has a champion. -/
theorem exists_champion (some_row : m ≠ []) (numbers : ∀ row ∈ m, Numeric row) (k : Nat) :
    ∃ i, champion? m k = some i := by
  rw [champion?_eq_argmax numbers]
  refine Option.ne_none_iff_exists'.1 fun none => ?_
  rw [List.argmax_eq_none, List.range_eq_nil, List.length_eq_zero_iff] at none
  exact some_row none

/-- The elements of a list in the order of their first places, each once. -/
def firsts (xs : List Nat) : List Nat :=
  xs.foldl (fun found i => if found.contains i then found else found ++ [i]) []

theorem elites_eq_firsts (m : Matrix) :
    elites m = firsts ((List.range (width m)).filterMap (champion? m)) := rfl

theorem firsts_concat (xs : List Nat) (i : Nat) :
    firsts (xs ++ [i]) = if i ∈ firsts xs then firsts xs else firsts xs ++ [i] := by
  simp [firsts, List.foldl_append]

theorem mem_firsts {xs : List Nat} {i : Nat} : i ∈ firsts xs ↔ i ∈ xs := by
  induction xs using List.reverseRecOn with
  | nil => rfl
  | append_singleton xs j ih =>
    rw [firsts_concat, List.mem_append, List.mem_singleton]
    split
    case isTrue old =>
      constructor
      · exact fun there => .inl (ih.1 there)
      · rintro (there | rfl)
        · exact ih.2 there
        · exact old
    case isFalse => rw [List.mem_append, List.mem_singleton, ih]

theorem nodup_firsts (xs : List Nat) : (firsts xs).Nodup := by
  induction xs using List.reverseRecOn with
  | nil => exact List.nodup_nil
  | append_singleton xs i ih =>
    rw [firsts_concat]
    split
    case isTrue => exact ih
    case isFalse new =>
      refine List.nodup_append.2 ⟨ih, by simp, fun a old b last same => ?_⟩
      obtain rfl := List.mem_singleton.1 last
      exact new (same ▸ old)

/-- What is listed before something else has a place before all places of that. -/
theorem firsts_ordered (xs : List Nat) :
    (firsts xs).Pairwise fun a b => ∃ k : Nat, xs[k]? = some a ∧ ∀ l ≤ k, xs[l]? ≠ some b := by
  induction xs using List.reverseRecOn with
  | nil => exact List.Pairwise.nil
  | append_singleton xs i ih =>
    have kept : (firsts xs).Pairwise fun a b =>
        ∃ k : Nat, (xs ++ [i])[k]? = some a ∧ ∀ l ≤ k, (xs ++ [i])[l]? ≠ some b := by
      refine ih.imp fun {a b} ⟨k, there, before⟩ => ⟨k, ?_, fun l le => ?_⟩
      all_goals have inside := (List.getElem?_eq_some_iff.1 there).1
      · rwa [List.getElem?_append_left inside]
      · rw [List.getElem?_append_left (by omega)]
        exact before l le
    rw [firsts_concat]
    split
    case isTrue => exact kept
    case isFalse new =>
      refine List.pairwise_append.2 ⟨kept, List.pairwise_singleton _ i, fun a old b last => ?_⟩
      obtain rfl := List.mem_singleton.1 last
      obtain ⟨k, inside, there⟩ := List.getElem_of_mem (mem_firsts.1 old)
      refine ⟨k, ?_, fun l le => ?_⟩
      · rw [List.getElem?_append_left inside, List.getElem?_eq_getElem inside, there]
      · rw [List.getElem?_append_left (by omega)]
        exact fun found => new (mem_firsts.2 (List.mem_of_getElem? found))

/-- The champions of the tasks, each once, in the order of the first task that each of
them wins. -/
theorem elites_spec (numbers : ∀ row ∈ m, Numeric row) :
    (elites m).Nodup ∧ (∀ i, i ∈ elites m ↔ ∃ k < width m, Leads m k i) ∧
      (elites m).Pairwise fun i j =>
        ∃ k < width m, Leads m k i ∧ ∀ l ≤ k, ¬Leads m l j := by
  rw [elites_eq_firsts]
  by_cases some_row : m = []
  · subst some_row
    refine ⟨nodup_firsts _, fun i => ?_, List.Pairwise.nil⟩
    simp [width, firsts]
  -- Every task has a champion, so that the list of them has a place for every task.
  choose winner wins using exists_champion some_row numbers
  have winners : (List.range (width m)).filterMap (champion? m) =
      (List.range (width m)).map winner := by
    rw [← List.filterMap_eq_map]
    exact List.filterMap_congr fun k _ => wins k
  have at_place {k i : Nat} : ((List.range (width m)).map winner)[k]? = some i ↔
      k < width m ∧ Leads m k i := by
    rw [List.getElem?_map, Option.map_eq_some_iff, ← champion?_eq_some_iff numbers, wins]
    by_cases inside : k < width m <;> simp [inside]
  rw [winners]
  refine ⟨nodup_firsts _, fun i => ?_, (firsts_ordered _).imp fun {i j} ⟨k, there, before⟩ => ?_⟩
  · rw [mem_firsts, List.mem_iff_getElem?]
    simp only [at_place]
  · obtain ⟨inside, leads⟩ := at_place.1 there
    exact ⟨k, inside, leads, fun l le other => before l le (at_place.2 ⟨by omega, other⟩)⟩

end TangledGraph.Scoring
