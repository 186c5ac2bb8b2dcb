import TangledGraph.Code
import TangledGraph.Proofs.Yields

/-!
# Ranged draws stay in their range

The high half of the product of a word and a range is below the range.
-/
namespace TangledGraph

namespace Draw

variable {bits range : Nat} {word : Draw Nat}

theorem shiftRight_mul_lt {drawn : Nat} (h : drawn < Nat.pow 2 bits) (positive : 0 < range) :
    (drawn * range) >>> bits < range := by
  rw [Nat.shiftRight_eq_div_pow]
  exact Nat.div_lt_of_lt_mul (Nat.mul_lt_mul_of_pos_right h positive)

/-- A round gives a number below the range or asks for another word. -/
theorem belowRound_yields (words : Yields word (· < Nat.pow 2 bits)) (positive : 0 < range)
    (u : Unit) :
    Yields (belowRound bits range word u) (Sum.elim (fun _ => True) (· < range)) := by
  refine words.bind fun drawn h => ?_
  dsimp only
  split
  · exact Yields.pure (shiftRight_mul_lt h positive)
  · exact Yields.pure trivial

theorem below_yields (words : Yields word (· < Nat.pow 2 bits)) :
    Yields (below bits range word) (· < range) := by
  unfold below
  split
  · exact Yields.throw
  case isFalse some_number =>
    have positive : 0 < range := Nat.pos_of_ne_zero some_number
    exact Yields.iterate (fun _ => True) (fun u _ => belowRound_yields words positive u) _ trivial

theorem below32_yields (n : Nat) : Yields (below32 n) (· < n) := by
  refine below_yields ?_
  rw [map_eq_pure_bind]
  exact Yields.skip fun word => Yields.pure word.toNat_lt

theorem below64_yields (n : Nat) : Yields (below64 n) (· < n) := by
  refine below_yields ?_
  rw [map_eq_pure_bind]
  exact Yields.skip fun word => Yields.pure word.toNat_lt

theorem between_yields (low high : Nat) :
    Yields (between low high) fun n => low ≤ n ∧ n ≤ high := by
  unfold between
  split
  · exact Yields.throw
  · rw [map_eq_pure_bind]
    exact (below64_yields _).bind fun n h => Yields.pure (by omega)

theorem distinctPair_yields (n : Nat) :
    Yields (distinctPair n) fun pair => pair.1 < n ∧ pair.2 < n ∧ pair.1 ≠ pair.2 := by
  refine (below32_yields (n - 1)).bind fun first h => ?_
  refine (below32_yields n).bind fun second h' => Yields.pure ?_
  split
  all_goals
    dsimp only
    omega

end Draw

/-- The codes that a place of the set names. -/
theorem CodeSet.get?_of_lt {set : CodeSet} {i : Nat} (h : i < set.size) :
    ∃ code ∈ set.toList, set.get? i = some code :=
  ⟨set.toList[i], List.getElem_mem h, List.getElem?_eq_getElem h⟩

end TangledGraph
