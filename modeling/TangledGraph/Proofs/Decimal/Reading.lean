import TangledGraph.Decimal.Reader
import TangledGraph.Proofs.Decimal.Layout

/-!
# Decimals read back

The decimal that is written for a finite float is rounded to that float when it is read.
-/
namespace TangledGraph.Decimal

open Float.Model Rounding

variable {n k m : ℕ} {e : ℤ} {x y : Float} {whole places : List Char} {s : UnpackedFloat.Sign}

/-- Digits over a power of ten that are not beyond all floats are rounded once. -/
theorem nearest_rounds (pos : 0 < n) (some : 0 < k) (few : k ≤ 324)
    (bounded : (n / 10 ^ k : ℚ) < edge) : Rounds (n / 10 ^ k) (nearest n (0 - k)) := by
  have length : (toString n).length = (Nat.toDigits 10 n).length := by
    rw [← toString_toList, String.length_toList]
  have least : 0 < (Nat.toDigits 10 n).length := Nat.length_toDigits_pos
  have most : (Nat.toDigits 10 n).length ≤ k + 400 := by
    rw [Nat.length_toDigits_le_iff (by decide) (by omega)]
    have power : edge ≤ 10 ^ 400 := by
      calc edge ≤ 2 ^ ((3 * 400 : ℕ) : ℤ) := zpow_le_zpow_right₀ (by norm_num) (by norm_num)
        _ = (2 ^ 3) ^ 400 := by rw [zpow_natCast, pow_mul]
        _ ≤ 10 ^ 400 := pow_le_pow_left₀ (by norm_num) (by norm_num) 400
    rw [div_lt_iff₀ (by positivity)] at bounded
    have product : (n : ℚ) < 10 ^ (k + 400) := by
      calc (n : ℚ) < edge * 10 ^ k := bounded
        _ ≤ 10 ^ 400 * 10 ^ k := by gcongr
        _ = 10 ^ (k + 400) := by rw [pow_add, mul_comm]
    exact_mod_cast product
  have exponent : (0 - k : ℤ) < 0 := by omega
  have size : (0 - k : ℤ).natAbs = k := by omega
  rw [nearest, length, if_neg (by omega), if_neg (by omega), size, decide_eq_true exponent]
  exact rounds_ofScientific pos some (by omega)

/-- What is rounded to a number within the edge is within it. -/
theorem lt_edge_of_nearestSize {q : ℚ} (below : nearestSize q < edge) : q < edge := by
  by_contra beyond
  have mono := nearestSize_mono edge_pos.le (not_lt.1 beyond)
  rw [nearestSize_edge] at mono
  exact absurd below (not_lt.2 mono)

/-- A float unpacks to its negative with the other sign. -/
theorem unpack_neg {u : UnpackedFloat} (unpacked : x.toModel.unpack = u)
    (number : u.neg.isNaN = false) (inPlace : InPlace u.neg) : (-x).toModel.unpack = u.neg := by
  have model : (-x).toModel = Float.Model.pack x.toModel.unpack.neg := rfl
  rw [model, unpacked]
  exact unpack_pack_of_inPlace number inPlace

/-- The digits of the shortest decimal of a float, after the sign of the float, read
back as the float. -/
theorem ofParts_shortest {pos : 0 < m} (unpacked : x.toModel.unpack = .finite s m e pos)
    (pointed : Pointed (value (shortest x)) whole places) (few : places.length ≤ 324) :
    ofParts (negative x) whole places 0 = x := by
  obtain ⟨rounded, -⟩ := shortest_rounds unpacked
  have stored := stored_of_unpack unpacked
  have number := isNaN_of_unpacked unpacked rfl
  obtain ⟨-, ⟨-, some⟩, -, quotient⟩ := pointed
  obtain ⟨n, digits⟩ : ∃ n, natural (whole ++ places) = n := ⟨_, rfl⟩
  rw [digits] at quotient
  have positive : 0 < n := by
    refine Nat.pos_of_ne_zero fun zero => ?_
    rw [zero, Nat.cast_zero, zero_div] at quotient
    rw [← quotient, nearestSize_zero] at rounded
    exact stored.size_pos.ne rounded
  have within : value (shortest x) < edge :=
    lt_edge_of_nearestSize (rounded ▸ stored.size_lt_edge)
  have rounds := nearest_rounds positive (List.length_pos_iff.2 some) few (quotient ▸ within)
  have extent : extent (nearest n (0 - places.length)) = m * 2 ^ e := by
    rw [rounds.extent_eq, quotient, ← rounded]
    refine if_pos ?_
    rw [← quotient]
    positivity
  have magnitude := unpack_of_extent rounds.number stored extent
  have sign : negative x = true ↔ s = .negative :=
    negative_of_unpack unpacked (.inr (.inr ⟨m, e, pos, rfl⟩))
  rw [ofParts, digits]
  refine eq_of_magnitude number sign ?_ ?_
  · rintro rfl
    exact unpacked.trans magnitude.symm
  · rintro rfl
    exact unpacked.trans (unpack_neg magnitude rfl stored).symm

/-- Zeros, after the sign of a zero, read back as that zero. -/
theorem ofParts_zero (unpacked : x.toModel.unpack = .zero s)
    (pointed : Pointed (value (shortest x)) whole places) :
    ofParts (negative x) whole places 0 = x := by
  have number := isNaN_of_unpacked unpacked rfl
  have none : natural (whole ++ places) = 0 := by
    have zero : value (shortest x) = 0 := by
      rw [shortest, ofFloat_of_zero unpacked]
      exact zero_mul _
    have quotient := pointed.value
    rw [zero, div_eq_zero_iff, Nat.cast_eq_zero] at quotient
    exact quotient.resolve_right (by positivity)
  have nothing : nearest 0 (0 - places.length) = 0.0 := by
    rw [nearest]
    exact if_pos (.inl rfl)
  have zero : (0.0 : Float).toModel.unpack = .zero .positive := rfl
  have mirrored : (-0.0 : Float).toModel.unpack = .zero .negative := rfl
  have sign : negative x = true ↔ s = .negative := negative_of_unpack unpacked (.inr (.inl rfl))
  rw [ofParts, none, nothing]
  refine eq_of_magnitude number sign ?_ ?_
  · rintro rfl
    exact unpacked.trans zero.symm
  · rintro rfl
    exact unpacked.trans mirrored.symm

/-- The digits of the shortest decimal of a finite float read back as the float. -/
theorem ofParts_eq (finite : x.isFinite = true)
    (pointed : Pointed (value (shortest x)) whole places)
    (few : (places.length : ℤ) = max 1 (-(shortest x).exponent)) :
    ofParts (negative x) whole places 0 = x := by
  obtain ⟨s, unpacked, -⟩ | ⟨s, m, e, pos, unpacked, -⟩ := finite_cases finite
  · exact ofParts_zero unpacked pointed
  · have least := (shortest_rounds unpacked).2
    exact ofParts_shortest unpacked pointed (by omega)

end TangledGraph.Decimal
