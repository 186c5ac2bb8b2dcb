import Mathlib.Logic.Relation
import TangledGraph.Proofs.Random.Range

/-!
# Draws that cannot go wrong

A draw is safe if it has no fault but that it may not end, and that only at
places of the stream where this is allowed for. Ranged draws with an element in
their range fail to end only where the stream refuses all the words that they
may read. Safe draws are put together along their steps, as statements about
all results are, but each step has to show that it can be taken.
-/
namespace TangledGraph

namespace Stream

/-- Some words of a stream are read. -/
abbrev Before : Stream → Stream → Prop :=
  Relation.ReflTransGen fun s s' => s' = s.next64.2 ∨ s' = s.next32.2

/-- From here a ranged draw refuses every word that it may read. -/
def Stuck (s : Stream) : Prop :=
  ∃ n, 0 < n ∧ ((Draw.below64 n).run s = .error .endless ∨
    (Draw.below32 n).run s = .error .endless)

end Stream

namespace Draw

variable {α β σ : Type} {stalls : Stream → Prop} {P : β → Prop} {Q : α → Prop}

/-- Whatever words are read, there is a result and it has the property, or the
draw does not end and comes by a place where draws may stall. -/
def Safe (stalls : Stream → Prop) (x : Draw α) (Q : α → Prop) : Prop :=
  ∀ stream, (∃ a rest, x.run stream = .ok (a, rest) ∧ stream.Before rest ∧ Q a) ∨
    x.run stream = .error .endless ∧ ∃ later, stream.Before later ∧ stalls later

/-- There is a result and it has the property, or the draw does not end. -/
abbrev Faultless (x : Draw α) (Q : α → Prop) : Prop := Safe (fun _ => True) x Q

theorem stalls_anywhere (s : Stream) (_ : s.Stuck) : True := trivial

protected theorem Safe.pure {a : α} (h : Q a) : Safe stalls (pure a) Q :=
  fun stream => .inl ⟨a, stream, rfl, .refl, h⟩

protected theorem Safe.bind {x : Draw α} {f : α → Draw β} (first : Safe stalls x Q)
    (next : ∀ a, Q a → Safe stalls (f a) P) : Safe stalls (x >>= f) P := by
  intro stream
  obtain ⟨a, middle, run, before, ha⟩ | ⟨run, later, before, stall⟩ := first stream
  · obtain ⟨b, rest, run', before', hb⟩ | ⟨run', later, before', stall⟩ := next a ha middle
    · refine .inl ⟨b, rest, ?_, before.trans before', hb⟩
      rw [StateT.run_bind, bind_eq_ok]
      exact ⟨_, run, run'⟩
    · refine .inr ⟨?_, later, before.trans before', stall⟩
      rw [StateT.run_bind, run]
      exact run'
  · refine .inr ⟨?_, later, before, stall⟩
    rw [StateT.run_bind, run]
    rfl

protected theorem Safe.mono {x : Draw α} {Q' : α → Prop} (h : Safe stalls x Q)
    (imp : ∀ a, Q a → Q' a) : Safe stalls x Q' := by
  intro stream
  obtain ⟨a, rest, run, before, ha⟩ | endless := h stream
  · exact .inl ⟨a, rest, run, before, imp a ha⟩
  · exact .inr endless

/-- The results of a safe draw have the property. -/
theorem Safe.yields {x : Draw α} (h : Safe stalls x Q) : Yields x Q := by
  intro stream b rest run
  obtain ⟨a, rest', run', -, ha⟩ | ⟨run', -⟩ := h stream
  · obtain ⟨rfl, -⟩ := Prod.mk.inj (Except.ok.inj (run'.symm.trans run))
    exact ha
  · simp [run] at run'

/-- A draw that cannot go wrong stalls where it began, if this is allowed for. -/
theorem Faultless.safe {x : Draw α} (h : Faultless x Q)
    (stall : ∀ stream, x.run stream = .error .endless → stalls stream) : Safe stalls x Q := by
  intro stream
  obtain result | ⟨run, -⟩ := h stream
  · exact .inl result
  · exact .inr ⟨run, stream, .refl, stall stream run⟩

/-- What a draw yields in any case holds of its safe results as well. -/
protected theorem Safe.and {x : Draw α} {Q' : α → Prop} (h : Safe stalls x Q)
    (yields : Yields x Q') : Safe stalls x fun a => Q a ∧ Q' a := by
  intro stream
  obtain ⟨a, rest, run, before, ha⟩ | endless := h stream
  · exact .inl ⟨a, rest, run, before, ha, yields stream a rest run⟩
  · exact .inr endless

/-- The result of the first step plays no part. -/
protected theorem Safe.skip {x : Draw α} {f : α → Draw β} (first : Safe stalls x fun _ => True)
    (next : ∀ a, Safe stalls (f a) P) : Safe stalls (x >>= f) P :=
  first.bind fun a _ => next a

/-- A step that draws nothing and can be taken. -/
protected theorem Safe.lift {x : Except Fault α} {a : α} (run : x = .ok a) (h : Q a) :
    Safe stalls (liftM x) Q :=
  fun stream => .inl ⟨a, stream, by rw [run]; rfl, .refl, h⟩

protected theorem Safe.lift_bind {x : Except Fault α} {f : α → Draw β} {a : α} (run : x = .ok a)
    (next : Safe stalls (f a) P) : Safe stalls (liftM x >>= f) P :=
  (Safe.lift (Q := (· = a)) run rfl).bind fun _ eq => eq ▸ next

/-- Two ways to the same rest of a draw. -/
protected theorem Safe.either {c : Prop} [Decidable c] {x y : Draw α} {f : α → Draw β}
    (first : c → Safe stalls x Q) (second : ¬c → Safe stalls y Q)
    (next : ∀ a, Q a → Safe stalls (f a) P) :
    Safe stalls (if c then x >>= f else y >>= f) P := by
  split
  case isTrue h => exact (first h).bind next
  case isFalse h => exact (second h).bind next

/-- A loop that ends by chance may stall anywhere. -/
theorem Faultless.iterate {round : σ → Draw (σ ⊕ α)} (I : σ → Prop)
    (keep : ∀ state, I state → Faultless (round state) (Sum.elim I Q)) (fuel : Nat) {state : σ}
    (start : I state) : Faultless (iterate round fuel state) Q := by
  induction fuel generalizing state with
  | zero => exact fun stream => .inr ⟨rfl, stream, .refl, trivial⟩
  | succ fuel ih =>
    refine (keep state start).bind fun outcome h => ?_
    cases outcome with
    | inl state => exact ih h
    | inr result => exact Safe.pure h

protected theorem Safe.mapM {f : β → Draw α} (each : ∀ b, Safe stalls (f b) Q) (bs : List β) :
    Safe stalls (bs.mapM f) fun results => ∀ a ∈ results, Q a := by
  induction bs with
  | nil => exact Safe.pure (by simp)
  | cons b bs ih =>
    rw [List.mapM_cons]
    refine (each b).bind fun a ha => ih.bind fun rest h => Safe.pure ?_
    exact List.forall_mem_cons.2 ⟨ha, h⟩

theorem word64_safe : Safe stalls word64 fun _ => True :=
  fun _ => .inl ⟨_, _, rfl, .single (.inl rfl), trivial⟩

theorem word32_safe : Safe stalls word32 fun _ => True :=
  fun _ => .inl ⟨_, _, rfl, .single (.inr rfl), trivial⟩

theorem unit_safe : Safe stalls unit fun _ => True :=
  word64_safe.skip fun _ => Safe.pure trivial

theorem chance_safe (p : Float) : Safe stalls (chance p) fun _ => True :=
  unit_safe.skip fun _ => Safe.pure trivial

theorem chanceWhen_safe (condition : Bool) (p : Float) :
    Safe stalls (chanceWhen condition p) fun chosen => chosen = true → condition = true := by
  unfold chanceWhen
  cases condition with
  | true => exact (chance_safe p).mono fun _ _ _ => rfl
  | false => exact Safe.pure (by simp)

theorem coin_safe : Safe stalls coin fun _ => True :=
  word32_safe.skip fun _ => Safe.pure trivial

/-- A round gives a number below the range or asks for another word. -/
theorem belowRound_safe {bits range : Nat} {word : Draw Nat}
    (words : Safe stalls word (· < Nat.pow 2 bits)) (positive : 0 < range) (u : Unit) :
    Safe stalls (belowRound bits range word u) (Sum.elim (fun _ => True) (· < range)) := by
  refine words.bind fun drawn h => ?_
  dsimp only
  split
  · exact Safe.pure (shiftRight_mul_lt h positive)
  · exact Safe.pure trivial

/-- A draw below a range that has an element gives one of them, or else refuses
all the words that it reads. -/
theorem below_safe {bits range : Nat} {word : Draw Nat}
    (words : Faultless word (· < Nat.pow 2 bits)) (positive : 0 < range)
    (stuck : ∀ s, (below bits range word).run s = .error .endless → stalls s) :
    Safe stalls (below bits range word) (· < range) := by
  have drawn : Faultless (below bits range word) (· < range) := by
    rw [below, if_neg (Nat.pos_iff_ne_zero.1 positive)]
    exact Faultless.iterate (fun _ => True) (fun u _ => belowRound_safe words positive u) _ trivial
  exact drawn.safe stuck

section Ranges

variable (stuck : ∀ s : Stream, s.Stuck → stalls s)
include stuck

theorem below64_safe {n : Nat} (positive : 0 < n) : Safe stalls (below64 n) (· < n) := by
  have words : Faultless (UInt64.toNat <$> word64) (· < Nat.pow 2 64) := by
    rw [map_eq_pure_bind]
    exact word64_safe.skip fun word => Safe.pure word.toNat_lt
  exact below_safe words positive fun s run => stuck s ⟨n, positive, .inl run⟩

theorem below32_safe {n : Nat} (positive : 0 < n) : Safe stalls (below32 n) (· < n) := by
  have words : Faultless (UInt32.toNat <$> word32) (· < Nat.pow 2 32) := by
    rw [map_eq_pure_bind]
    exact word32_safe.skip fun word => Safe.pure word.toNat_lt
  exact below_safe words positive fun s run => stuck s ⟨n, positive, .inr run⟩

theorem between_safe {low high : Nat} (ordered : low ≤ high) :
    Safe stalls (between low high) fun n => low ≤ n ∧ n ≤ high := by
  rw [between, if_neg (Nat.not_lt.2 ordered), map_eq_pure_bind]
  refine (below64_safe stuck (Nat.succ_pos _)).bind fun n h => Safe.pure ?_
  omega

theorem choose_safe (xs : List α) :
    Safe stalls (choose xs) fun chosen => (∀ a ∈ chosen, a ∈ xs) ∧ (chosen = none → xs = []) := by
  unfold choose
  split
  case isTrue empty => exact Safe.pure (by simpa using empty)
  case isFalse full =>
    have positive : 0 < xs.length := List.length_pos_iff.2 (by simpa using full)
    refine (below32_safe stuck positive).bind fun i h => Safe.pure ⟨?_, ?_⟩
    · exact fun a ha => List.mem_of_getElem? ha
    · intro none
      exact absurd (List.getElem?_eq_none_iff.1 none) (Nat.not_le.2 h)

/-- Swaps keep the elements. -/
theorem shuffleFrom_safe (i : Nat) (xs : Array α) :
    Safe stalls (shuffleFrom i xs) fun shuffled => shuffled.Perm xs := by
  induction i generalizing xs with
  | zero => exact Safe.pure (Array.Perm.refl xs)
  | succ i ih =>
    refine (below32_safe stuck (Nat.succ_pos _)).bind fun j _ => (ih _).mono fun shuffled perm => ?_
    refine perm.trans ?_
    unfold Array.swapIfInBounds
    split
    · split
      · exact Array.swap_perm _ _
      · exact Array.Perm.refl xs
    · exact Array.Perm.refl xs

theorem shuffle_safe (xs : List α) :
    Safe stalls (shuffle xs) fun shuffled => shuffled.Perm xs := by
  rw [shuffle, map_eq_pure_bind]
  refine (shuffleFrom_safe stuck _ _).bind fun shuffled perm => Safe.pure ?_
  simpa [Array.perm_iff_toList_perm] using perm

/-- Two places are drawn, and never the same. -/
theorem distinctPair_safe {n : Nat} (two : 2 ≤ n) :
    Safe stalls (distinctPair n) fun pair => pair.1 < n ∧ pair.2 < n ∧ pair.1 ≠ pair.2 := by
  refine (below32_safe stuck (by omega)).bind fun first h => ?_
  refine (below32_safe stuck (by omega)).bind fun second h' => Safe.pure ?_
  split
  all_goals
    dsimp only
    omega

end Ranges

end Draw

/-- A code of a set that has one. -/
theorem CodeSet.sample_safe {stalls : Stream → Prop} (stuck : ∀ s : Stream, s.Stuck → stalls s)
    {set : CodeSet} (some_code : 0 < set.size) :
    Draw.Safe stalls set.sample fun code => code ∈ set.toList := by
  refine (Draw.below64_safe stuck some_code).bind fun i h => ?_
  obtain ⟨code, there, found⟩ := CodeSet.get?_of_lt h
  rw [found]
  exact Draw.Safe.pure there

end TangledGraph
