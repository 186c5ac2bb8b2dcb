import TangledGraph.Proofs.Random.Range
import TangledGraph.Proofs.Settings.Valid

/-!
# What may be drawn

A draw allows a result if some words lead to it, whatever words come after them.
Ranged draws allow zero, and every number of a range of words. A chance allows both
of its results, unless its probability is zero, which allows only one. What is
allowed is put together along the steps of a draw, as the words are.
-/
namespace TangledGraph

namespace Draw

variable {α β σ : Type} {P : β → Prop} {Q : α → Prop}

/-- Some words lead to a result with the property, whatever comes after them. -/
def Allows (x : Draw α) (Q : α → Prop) : Prop :=
  ∃ words a, Q a ∧ ∀ later state,
    x.run (.scripted (words ++ later) state) = .ok (a, .scripted later state)

protected theorem Allows.pure {a : α} (h : Q a) : Allows (pure a) Q :=
  ⟨[], a, h, fun _ _ => rfl⟩

protected theorem Allows.bind {x : Draw α} {f : α → Draw β} (first : Allows x Q)
    (next : ∀ a, Q a → Allows (f a) P) : Allows (x >>= f) P := by
  obtain ⟨words, a, ha, run⟩ := first
  obtain ⟨words', b, hb, run'⟩ := next a ha
  refine ⟨words ++ words', b, hb, fun later state => ?_⟩
  rw [List.append_assoc, StateT.run_bind, run]
  exact run' later state

protected theorem Allows.lift {x : Except Fault α} {a : α} (run : x = .ok a) (h : Q a) :
    Allows (liftM x) Q :=
  ⟨[], a, h, fun _ _ => by rw [run]; rfl⟩

protected theorem Allows.lift_bind {x : Except Fault α} {f : α → Draw β} {a : α}
    (run : x = .ok a) (next : Allows (f a) P) : Allows (liftM x >>= f) P :=
  (Allows.lift (Q := (· = a)) run rfl).bind fun _ eq => eq ▸ next

protected theorem Allows.mono {x : Draw α} {Q' : α → Prop} (h : Allows x Q)
    (imp : ∀ a, Q a → Q' a) : Allows x Q' := by
  obtain ⟨words, a, ha, run⟩ := h
  exact ⟨words, a, imp a ha, run⟩

/-- What a draw yields in any case holds of the results that it allows. -/
protected theorem Allows.and {x : Draw α} {Q' : α → Prop} (h : Allows x Q)
    (yields : Yields x Q') : Allows x fun a => Q a ∧ Q' a := by
  obtain ⟨words, a, ha, run⟩ := h
  exact ⟨words, a, ⟨ha, yields _ _ _ (run [] 0)⟩, run⟩

protected theorem Allows.mapM {f : β → Draw α} (each : ∀ b, Allows (f b) fun _ => True)
    (bs : List β) : Allows (bs.mapM f) fun _ => True := by
  induction bs with
  | nil => exact Allows.pure trivial
  | cons b bs ih =>
    rw [List.mapM_cons]
    exact (each b).bind fun _ _ => ih.bind fun _ _ => Allows.pure trivial

/-- Two ways to the same rest of a draw. -/
protected theorem Allows.either {c : Prop} [Decidable c] {x y : Draw α} {f : α → Draw β}
    (first : c → Allows x Q) (second : ¬c → Allows y Q) (next : ∀ a, Q a → Allows (f a) P) :
    Allows (if c then x >>= f else y >>= f) P := by
  split
  case isTrue h => exact (first h).bind next
  case isFalse h => exact (second h).bind next

/-- A loop may end if its next round may end it. -/
theorem Allows.iterate {round : σ → Draw (σ ⊕ α)} {state : σ}
    (ends : Allows (round state) fun outcome => ∃ a, outcome = .inr a ∧ Q a) (fuel : Nat) :
    Allows (iterate round (fuel + 1) state) Q := by
  refine ends.bind fun outcome ⟨a, eq, ha⟩ => ?_
  subst eq
  exact Allows.pure ha

/-- A loop whose rounds can only come back to where it is never ends. -/
theorem endless_of_gives {round : σ → Draw (σ ⊕ α)} {state : σ}
    (stays : Gives (round state) (· = .inl state)) (fuel : Nat) (stream : Stream) :
    (iterate round fuel state).run stream = .error .endless := by
  induction fuel generalizing stream with
  | zero => rfl
  | succ fuel ih =>
    obtain ⟨_, rest, run, rfl⟩ := stays stream
    simp only [iterate, StateT.run_bind, run]
    exact ih rest

/-- What never ends allows nothing. -/
theorem not_allows_of_endless {x : Draw α} (endless : ∀ stream, x.run stream = .error .endless) :
    ¬Allows x Q := by
  rintro ⟨words, a, -, run⟩
  have := (endless _).symm.trans (run [] 0)
  cases this

theorem below_allows {bits range : Nat} {word : Draw Nat} (zero : Allows word (· = 0))
    (positive : 0 < range) : Allows (below bits range word) (· = 0) := by
  rw [below, if_neg (Nat.pos_iff_ne_zero.1 positive)]
  have some_round : roundLimit = roundLimit - 1 + 1 := by decide
  rw [some_round]
  apply Allows.iterate
  apply Allows.bind zero
  rintro drawn rfl
  simp only [Nat.zero_mul, Nat.zero_mod, Nat.zero_le, if_true, Nat.zero_shiftRight]
  exact Allows.pure ⟨0, rfl, rfl⟩

theorem below64_allows {n : Nat} (positive : 0 < n) : Allows (below64 n) (· = 0) :=
  below_allows ⟨[0], 0, rfl, fun _ _ => rfl⟩ positive

theorem below32_allows {n : Nat} (positive : 0 < n) : Allows (below32 n) (· = 0) :=
  below_allows ⟨[0], 0, rfl, fun _ _ => rfl⟩ positive

theorem le_acceptance {bits range : Nat} : range - 1 ≤ acceptance bits range := by
  rw [acceptance, Nat.shiftLeft_eq]
  have : range * 1 ≤ range * 2 ^ (bits - (range.log2 + 1)) :=
    Nat.mul_le_mul_left range Nat.one_le_two_pow
  omega

/-- Every number below a range of words may be drawn: the least word that leads to it
leaves a low half that is below the range. -/
theorem below64_allows_of_lt {n k : Nat} (least : k < n) (most : n ≤ 2 ^ 64) :
    Allows (below64 n) (· = k) := by
  have positive : 0 < n := by omega
  -- The least word whose product with the range has the high half that is wanted.
  obtain ⟨word, low, product, small⟩ : ∃ word low, word * n = k * 2 ^ 64 + low ∧ low < n := by
    refine ⟨(k * 2 ^ 64 + (n - 1)) / n, n - 1 - (k * 2 ^ 64 + (n - 1)) % n, ?_, by omega⟩
    have division := Nat.div_add_mod (k * 2 ^ 64 + (n - 1)) n
    have remainder := Nat.mod_lt (k * 2 ^ 64 + (n - 1)) positive
    rw [Nat.mul_comm]
    omega
  have fits : word < 2 ^ 64 := by
    have : word * n < 2 ^ 64 * n := by
      have : (k + 1) * 2 ^ 64 ≤ n * 2 ^ 64 := Nat.mul_le_mul_right _ least
      omega
    exact Nat.lt_of_mul_lt_mul_right this
  have value : (UInt64.ofNat word).toNat = word := UInt64.toNat_ofNat_of_lt' fits
  have some_round : roundLimit = roundLimit - 1 + 1 := by decide
  rw [below64, below, if_neg positive.ne', some_round]
  apply Allows.iterate
  refine Allows.bind (Q := (· = word)) ⟨[UInt64.ofNat word], word, rfl, fun later state => ?_⟩ ?_
  · exact congrArg (fun drawn => Except.ok (drawn, Stream.scripted later state)) value
  rintro drawn rfl
  have high : (drawn * n) >>> 64 = k := by
    rw [product, Nat.shiftRight_eq_div_pow]
    omega
  have low' : drawn * n % Nat.pow 2 64 = low := by
    rw [product]
    exact Nat.mul_add_mod_of_lt (b := 2 ^ 64) (small.trans_le most)
  dsimp only
  rw [low', if_pos ((Nat.le_sub_one_of_lt small).trans le_acceptance), high]
  exact Allows.pure ⟨k, rfl, rfl⟩

/-- A list that has an element allows the first one. -/
theorem choose_allows {xs : List α} (some_element : xs ≠ []) :
    Allows (choose xs) fun chosen => ∃ a ∈ xs, chosen = some a := by
  obtain ⟨a, rest, rfl⟩ := List.exists_cons_of_ne_nil some_element
  refine (below32_allows (by simp)).bind fun i eq => Allows.pure ?_
  subst eq
  exact ⟨a, List.mem_cons_self, rfl⟩

theorem between_allows {low high k : Nat} (least : low ≤ k) (most : k ≤ high)
    (words : high < 2 ^ 64) : Allows (between low high) (· = k) := by
  rw [between, if_neg (by omega), map_eq_pure_bind]
  refine (below64_allows_of_lt (k := k - low) (by omega) (by omega)).bind fun n eq => ?_
  exact Allows.pure (by omega)

theorem distinctPair_allows {n : Nat} (two : 2 ≤ n) : Allows (distinctPair n) fun _ => True := by
  refine (below32_allows (by omega)).bind fun first _ => ?_
  exact (below32_allows (by omega)).bind fun second _ => Allows.pure trivial

section Chances

open Float.Model Float.Model.UnpackedFloat Rounding

theorem isPositive_unitStep : IsPositive unitStep (2 ^ 52) (-105) := ⟨by decide, rfl⟩

/-- What a unit draw makes of a word. -/
def unitOf (word : UInt64) : Float := (word >>> 11).toFloat * unitStep

/-- A unit draw is zero or positive. -/
theorem unitOf_cases (word : UInt64) :
    (unitOf word).toModel.unpack = .zero .positive ∨ ∃ m e, IsPositive (unitOf word) m e := by
  obtain ⟨n, small, eq⟩ : ∃ n : Nat, n < 2 ^ 53 ∧ word >>> 11 = n.toUInt64 := by
    refine ⟨(word >>> 11).toNat, ?_, (UInt64.ofNat_toNat).symm⟩
    have := word.toNat_lt
    rw [UInt64.toNat_shiftRight, Nat.shiftRight_eq_div_pow]
    exact Nat.div_lt_of_lt_mul (by simpa using this)
  rw [unitOf, eq]
  obtain rfl | pos := Nat.eq_zero_or_pos n
  · exact .inl rfl
  · have bits : n.log2 ≤ 52 := Nat.le_of_lt_succ ((Nat.log2_lt pos.ne').2 small)
    have product : (n * 2 ^ (52 - n.log2) * 2 ^ 52).log2 = 104 := by
      rw [mul_assoc, ← Nat.pow_add, log2_mul_two_pow pos.ne']
      omega
    obtain ⟨r, -, -, -, rounded⟩ := (isPositive_toFloat pos bits).mul isPositive_unitStep
      (by unfold place; omega) (by unfold place; omega)
    obtain ⟨-, zero⟩ | ⟨-, stays⟩ | ⟨-, moves⟩ := rounded
    · exact .inl zero
    · exact .inr ⟨_, _, stays⟩
    · exact .inr ⟨_, _, moves⟩

theorem lt_iff_unpack {x y : Float} :
    x < y ↔ UnpackedFloat.lt x.toModel.unpack y.toModel.unpack = true := decide_eq_true_iff

/-- No unit draw is below zero. -/
theorem not_unitOf_lt {p : Float} {s : Sign} (zero : p.toModel.unpack = .zero s) (word : UInt64) :
    ¬unitOf word < p := by
  rw [lt_iff_unpack, zero]
  obtain none | ⟨m, e, _, some⟩ := unitOf_cases word
  · rw [none]
    exact nofun
  · rw [some]
    exact nofun

/-- The least unit draw is below any positive number. -/
theorem unitOf_zero_lt {p : Float} {m : Nat} {e : Int} (h : IsPositive p m e) : unitOf 0 < p := by
  obtain ⟨pos, unpacked⟩ := h
  have least : (unitOf 0).toModel.unpack = .zero .positive := rfl
  rw [lt_iff_unpack, unpacked, least]
  rfl

/-- The greatest unit draw is below no probability. -/
theorem not_unitOf_top_lt {p : Float} (h : isProbability p = true) :
    ¬unitOf 0xFFFFFFFFFFFFFFFF < p := by
  obtain ⟨s, zero⟩ | ⟨m, e, ⟨pos, unpacked⟩, small, -, high⟩ := unpack_of_isProbability h
  · exact not_unitOf_lt zero _
  · have most : (unitOf 0xFFFFFFFFFFFFFFFF).toModel.unpack =
        .finite .positive (2 ^ 53 - 1) (-53) (by decide) := rfl
    rw [lt_iff_unpack, unpacked, most]
    simp only [UnpackedFloat.lt, UnpackedFloat.compare, beq_iff_eq, Option.some.injEq,
      Ordering.then_eq_lt, Int.compare_eq_lt, Int.compare_eq_eq, Nat.compare_eq_lt]
    omega

theorem beq_zero_iff {p : Float} (h : isProbability p = true) :
    (p == 0.0) = true ↔ ∃ s, p.toModel.unpack = .zero s := by
  have unfolded : (p == 0.0) = UnpackedFloat.beq p.toModel.unpack (.zero .positive) := rfl
  rw [unfolded]
  obtain ⟨s, zero⟩ | ⟨m, e, ⟨pos, unpacked⟩, -⟩ := unpack_of_isProbability h
  · simp [zero, UnpackedFloat.beq, UnpackedFloat.compare]
  · simp [unpacked, UnpackedFloat.beq, UnpackedFloat.compare]

theorem chance_run (p : Float) (stream : Stream) :
    (chance p).run stream = .ok (decide (unitOf stream.next64.1 < p), stream.next64.2) := rfl

/-- With probability zero there is no chance. -/
theorem chance_of_zero {p : Float} (h : isProbability p = true) (zero : (p == 0.0) = true) :
    Gives (chance p) (· = false) := by
  intro stream
  obtain ⟨s, unpacked⟩ := (beq_zero_iff h).1 zero
  exact ⟨_, _, chance_run p stream, decide_eq_false (not_unitOf_lt unpacked _)⟩

theorem chance_allows_false {p : Float} (h : isProbability p = true) :
    Allows (chance p) (· = false) := by
  refine ⟨[0xFFFFFFFFFFFFFFFF], false, rfl, fun later state => ?_⟩
  have run := chance_run p (.scripted (0xFFFFFFFFFFFFFFFF :: later) state)
  rwa [Stream.next64_scripted_cons, decide_eq_false (not_unitOf_top_lt h)] at run

theorem chance_allows_true {p : Float} (h : isProbability p = true)
    (positive : (p == 0.0) = false) : Allows (chance p) (· = true) := by
  obtain zero | ⟨m, e, some, -⟩ := unpack_of_isProbability h
  · rw [(beq_zero_iff h).2 zero] at positive
    cases positive
  · refine ⟨[0], true, rfl, fun later state => ?_⟩
    have run := chance_run p (.scripted (0 :: later) state)
    rwa [Stream.next64_scripted_cons, decide_eq_true (unitOf_zero_lt some)] at run

theorem chanceWhen_allows_false {p : Float} (h : isProbability p = true) (condition : Bool) :
    Allows (chanceWhen condition p) (· = false) := by
  cases condition with
  | true => exact chance_allows_false h
  | false => exact Allows.pure rfl

end Chances

end Draw

theorem CodeSet.sample_allows {set : CodeSet} (some_code : 0 < set.size) :
    Draw.Allows set.sample fun _ => True := by
  refine (Draw.below64_allows some_code).bind fun i eq => ?_
  subst eq
  obtain ⟨code, -, found⟩ := CodeSet.get?_of_lt some_code
  rw [found]
  exact Draw.Allows.pure trivial

end TangledGraph
