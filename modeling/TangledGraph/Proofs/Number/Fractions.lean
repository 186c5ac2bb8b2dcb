import TangledGraph.Proofs.Number.Operations

/-!
# Fractions

Floats from zero to one, and what comes of adding them up one after another. Every sum
is rounded, but to the nearest number: it never falls, and it is not above the number of
its terms as long as that has a float of its own. From there on the sum stays as it is,
which is why a mean of fractions is a fraction however many they are.
-/
namespace TangledGraph.Rounding

/-- A float from zero to one. -/
def InUnit (x : Float) : Prop := 0.0 ≤ x ∧ x ≤ 1.0

namespace InUnit

variable {x : Float}

theorem nonneg (h : InUnit x) : 0 ≤ extent x := (le_iff_numbers.1 h.1).2.2

theorem le_one (h : InUnit x) : extent x ≤ 1 := extent_one ▸ (le_iff_numbers.1 h.2).2.2

theorem finite (h : InUnit x) : x.isFinite = true := by
  rw [isFinite_iff_extent (le_iff_numbers.1 h.1).2.1, abs_of_nonneg h.nonneg]
  exact h.le_one.trans_lt one_lt_edge

theorem of_extent (number : x.isNaN = false) (nonneg : 0 ≤ extent x) (le_one : extent x ≤ 1) :
    InUnit x :=
  ⟨le_iff_numbers.2 ⟨rounds_zero.number, number, nonneg⟩,
    le_iff_numbers.2 ⟨number, rounds_one.number, extent_one ▸ le_one⟩⟩

end InUnit

/-- A sum of so many floats from zero to one. Its bound is a count that is a float itself. -/
structure PartialSum (j : ℕ) (s : Float) : Prop where
  number : s.isNaN = false
  nonneg : 0 ≤ extent s
  le : s ≤ Float.ofNat (min j (2 ^ 53))

namespace PartialSum

variable {j : ℕ} {s v : Float}

theorem finite (h : PartialSum j s) : s.isFinite = true := by
  have le := (le_iff_numbers.1 h.le).2.2
  rw [extent_ofNat (min_le_right _ _)] at le
  have most : ((min j (2 ^ 53) : ℕ) : ℚ) ≤ 2 ^ 53 := by exact_mod_cast min_le_right j (2 ^ 53)
  rw [isFinite_iff_extent h.number, abs_of_nonneg h.nonneg]
  exact (le.trans most).trans_lt (two_pow_lt_edge (by decide))

theorem rounds (h : PartialSum j s) (hv : InUnit v) : Rounds (extent s + extent v) (s + v) :=
  rounds_add h.finite hv.finite

/-- Where counts no longer have floats of their own, another one makes no difference. -/
theorem add (h : PartialSum j s) (hv : InUnit v) : PartialSum (j + 1) (s + v) := by
  have rounds := h.rounds hv
  have below := (le_iff_numbers.1 h.le).2.2
  rw [extent_ofNat (min_le_right _ _)] at below
  refine ⟨rounds.number, ?_, ?_⟩
  · rw [rounds.extent_eq, ← nearest_zero]
    exact nearest_mono (add_nonneg h.nonneg hv.nonneg)
  · have le : s + v ≤ Float.ofNat (min j (2 ^ 53) + 1) := by
      refine rounds.le (rounds_ofNat _) ?_
      push_cast at below ⊢
      linarith [hv.le_one]
    obtain small | large := lt_or_ge j (2 ^ 53)
    · have next : min j (2 ^ 53) + 1 = min (j + 1) (2 ^ 53) := by omega
      exact next ▸ le
    · have saturated : Float.ofNat (2 ^ 53 + 1) = Float.ofNat (2 ^ 53) := by decide +kernel
      rw [min_eq_right large, saturated] at le
      rw [min_eq_right (large.trans (Nat.le_succ j))]
      exact le

theorem foldl {xs : List Float} (h : PartialSum j s) (units : ∀ x ∈ xs, InUnit x) :
    PartialSum (j + xs.length) (xs.foldl (· + ·) s) := by
  induction xs generalizing j s with
  | nil => exact h
  | cons x xs ih =>
    have rest := ih (h.add (units x List.mem_cons_self)) fun y there =>
      units y (List.mem_cons_of_mem _ there)
    rw [List.length_cons, ← Nat.succ_add_eq_add_succ]
    exact rest

theorem start : PartialSum 0 (-0.0) := by
  refine ⟨by decide +kernel, ?_, by decide +kernel⟩
  exact le_of_eq rfl

variable {t : Float} {n : ℕ}

/-- Sums of two families keep the order of their terms: both stay far from the infinities. -/
theorem foldl_mono {columns : List ℕ} {f g : ℕ → Float} (hs : PartialSum j s) (ht : PartialSum j t)
    (start : t ≤ s) (hf : ∀ k ∈ columns, InUnit (f k)) (hg : ∀ k ∈ columns, InUnit (g k))
    (le : ∀ k ∈ columns, g k ≤ f k) :
    (columns.map g).foldl (· + ·) t ≤ (columns.map f).foldl (· + ·) s := by
  induction columns generalizing j s t with
  | nil => exact start
  | cons k rest ih =>
    have hf₀ := hf k List.mem_cons_self
    have hg₀ := hg k List.mem_cons_self
    have sums : extent t + extent (g k) ≤ extent s + extent (f k) :=
      add_le_add (le_iff_numbers.1 start).2.2 (le_iff_numbers.1 (le k List.mem_cons_self)).2.2
    exact ih (hs.add hf₀) (ht.add hg₀) ((ht.rounds hg₀).le (hs.rounds hf₀) sums)
      (fun k there => hf k (List.mem_cons_of_mem _ there))
      (fun k there => hg k (List.mem_cons_of_mem _ there))
      fun k there => le k (List.mem_cons_of_mem _ there)

/-- A number of terms beyond all floats makes every mean zero. -/
theorem inUnit_div (h : PartialSum j s) (le : j ≤ n) (pos : 0 < n) :
    InUnit (s / Float.ofNat n) := by
  by_cases finite : (Float.ofNat n).isFinite = true
  · have positive := extent_ofNat_pos pos
    have below : s ≤ Float.ofNat n := float_le_trans h.le (ofNat_le ((min_le_left _ _).trans le))
    have rounds := rounds_div h.finite finite positive.ne'
    exact ⟨rounds_zero.le rounds (div_nonneg h.nonneg positive.le),
      rounds.le rounds_one ((div_le_one positive).2 (le_iff_numbers.1 below).2.2)⟩
  · obtain ⟨number, zero⟩ := extent_div_of_infinite h.finite (rounds_ofNat n).number
      (Bool.eq_false_iff.2 finite)
    exact InUnit.of_extent number zero.ge (zero.trans_le zero_le_one)

theorem div_mono (hs : PartialSum j s) (ht : PartialSum j t) (le : t ≤ s) (pos : 0 < n) :
    t / Float.ofNat n ≤ s / Float.ofNat n := by
  by_cases finite : (Float.ofNat n).isFinite = true
  · have positive := extent_ofNat_pos pos
    exact (rounds_div ht.finite finite positive.ne').le (rounds_div hs.finite finite positive.ne')
      (div_le_div_of_nonneg_right (le_iff_numbers.1 le).2.2 positive.le)
  · have divisor := (rounds_ofNat n).number
    obtain ⟨number, zero⟩ := extent_div_of_infinite ht.finite divisor (Bool.eq_false_iff.2 finite)
    obtain ⟨number', zero'⟩ := extent_div_of_infinite hs.finite divisor (Bool.eq_false_iff.2 finite)
    exact le_iff_numbers.2 ⟨number, number', (zero.trans zero'.symm).le⟩

end PartialSum

end TangledGraph.Rounding
