import TangledGraph.Proofs.Random.Safety

/-!
# Counted draws

A loop that goes on by chance makes two kinds of draws: unit draws and choices. A
draw is within a number of them if it makes at most so many, whatever is drawn. It
may still fail to end, but only inside of a choice that refuses every word, never
because the loop goes on. Counts add up along the steps of a draw. On words that
are all zero no choice refuses, so there the draw gives a result.
-/
namespace TangledGraph

namespace Stream

/-- So many draws lead from one place of a stream to another, each of them a unit
draw or a choice. -/
inductive Drawn : Nat → Stream → Stream → Prop
  | none (s : Stream) : Drawn 0 s s
  | unit {k : Nat} {s s' : Stream} (before : Drawn k s s') : Drawn (k + 1) s s'.next64.2
  | choice {k n i : Nat} {s s' s'' : Stream} (before : Drawn k s s')
      (run : (Draw.below32 n).run s' = .ok (i, s'')) : Drawn (k + 1) s s''

/-- From here a choice refuses every word. -/
def Refuses (s : Stream) : Prop := ∃ n, 0 < n ∧ (Draw.below32 n).run s = .error .endless

theorem Drawn.trans {j k : Nat} {s s' s'' : Stream} (first : Drawn j s s')
    (second : Drawn k s' s'') : Drawn (j + k) s s'' := by
  induction second with
  | none => exact first
  | unit _ ih => exact .unit (ih first)
  | choice _ run ih => exact .choice (ih first) run

/-- A script that begins with so many words of zero. -/
def zeros (k : Nat) (later : List UInt64) (state : UInt64) : Stream :=
  .scripted (List.replicate k 0 ++ later) state

end Stream

namespace Draw

variable {α β : Type} {j k : Nat} {P : β → Prop} {Q : α → Prop}

/-- Whatever is drawn, there is a result after at most so many draws and it has the
property, or one of the draws is a choice that refuses every word. -/
def Within (most : Nat) (x : Draw α) (Q : α → Prop) : Prop :=
  ∀ stream : Stream,
    (∃ k ≤ most, ∃ a rest, x.run stream = .ok (a, rest) ∧ stream.Drawn k rest ∧ Q a) ∨
      x.run stream = .error .endless ∧ ∃ k < most, ∃ later, stream.Drawn k later ∧ later.Refuses

protected theorem Within.pure {a : α} (h : Q a) : Within k (pure a) Q :=
  fun stream => .inl ⟨0, Nat.zero_le k, a, stream, rfl, .none stream, h⟩

protected theorem Within.bind {x : Draw α} {f : α → Draw β} (first : Within j x Q)
    (next : ∀ a, Q a → Within k (f a) P) : Within (j + k) (x >>= f) P := by
  intro stream
  obtain ⟨m, le, a, middle, run, drawn, ha⟩ | ⟨run, m, lt, later, drawn, refuses⟩ := first stream
  · obtain ⟨n, le', b, rest, run', drawn', hb⟩ | ⟨run', n, lt, later, drawn', refuses⟩ :=
      next a ha middle
    · refine .inl ⟨m + n, Nat.add_le_add le le', b, rest, ?_, drawn.trans drawn', hb⟩
      exact run_bind_eq_ok.2 ⟨a, middle, run, run'⟩
    · refine .inr ⟨?_, m + n, Nat.add_lt_add_of_le_of_lt le lt, later, drawn.trans drawn', refuses⟩
      rw [StateT.run_bind, run]
      exact run'
  · refine .inr ⟨?_, m, Nat.lt_add_right k lt, later, drawn, refuses⟩
    rw [StateT.run_bind, run]
    rfl

protected theorem Within.mono {x : Draw α} {Q' : α → Prop} (h : Within j x Q) (le : j ≤ k)
    (imp : ∀ a, Q a → Q' a) : Within k x Q' := by
  intro stream
  obtain ⟨m, fits, a, rest, run, drawn, ha⟩ | ⟨run, m, fits, refused⟩ := h stream
  · exact .inl ⟨m, Nat.le_trans fits le, a, rest, run, drawn, imp a ha⟩
  · exact .inr ⟨run, m, Nat.lt_of_lt_of_le fits le, refused⟩

/-- A step that draws nothing and can be taken. -/
protected theorem Within.lift_bind {x : Except Fault α} {f : α → Draw β} {a : α}
    (run : x = .ok a) (next : Within k (f a) P) : Within k (liftM x >>= f) P := by
  rw [run]
  exact next

theorem chance_within (p : Float) : Within 1 (chance p) fun _ => True :=
  fun stream => .inl ⟨1, Nat.le_refl 1, _, _, rfl, .unit (.none stream), trivial⟩

/-- Nothing is drawn for the empty list. -/
theorem choose_within (xs : List α) : Within 1 (choose xs) fun chosen =>
    (∀ a ∈ chosen, a ∈ xs) ∧ (chosen = none → xs = []) := by
  unfold choose
  split
  case isTrue empty => exact Within.pure (by simpa using empty)
  case isFalse full =>
    have positive : 0 < xs.length := List.length_pos_iff.2 (by simpa using full)
    have number : Within 1 (below32 xs.length) (· < xs.length) := by
      have safe : Safe (fun _ => True) (below32 xs.length) (· < xs.length) :=
        below32_safe (fun _ _ => trivial) positive
      intro stream
      obtain ⟨i, rest, run, -, lt⟩ | ⟨run, -⟩ := safe stream
      · exact .inl ⟨1, Nat.le_refl 1, i, rest, run, .choice (.none stream) run, lt⟩
      · exact .inr ⟨run, 0, Nat.one_pos, stream, .none stream, xs.length, positive, run⟩
    refine number.bind (k := 0) fun i lt => Within.pure ⟨?_, ?_⟩
    · exact fun a ha => List.mem_of_getElem? ha
    · intro none
      exact absurd (List.getElem?_eq_none_iff.1 none) (Nat.not_le.2 lt)

variable {later : List UInt64} {state : UInt64}

/-- A choice takes a word of zero and gives the first element. -/
theorem below32_zeros {n : Nat} (positive : 0 < n) :
    (below32 n).run (.zeros (k + 1) later state) = .ok (0, .zeros k later state) := by
  have some_round : roundLimit = roundLimit - 1 + 1 := by decide
  have word : (UInt32.toNat <$> word32).run (.zeros (k + 1) later state) =
      .ok (0, .zeros k later state) := rfl
  rw [below32, below, if_neg (Nat.pos_iff_ne_zero.1 positive), some_round]
  refine run_bind_eq_ok.2 ⟨.inr 0, .zeros k later state, ?_, rfl⟩
  refine run_bind_eq_ok.2 ⟨0, .zeros k later state, word, ?_⟩
  simp only [Nat.zero_mul, Nat.zero_mod, Nat.zero_le, if_true, Nat.zero_shiftRight]
  rfl

/-- Every draw takes one word of zero, as long as there are any. -/
theorem drawn_zeros {most : Nat} {s : Stream}
    (drawn : (Stream.zeros most later state).Drawn k s) (le : k ≤ most) :
    s = .zeros (most - k) later state := by
  generalize start : Stream.zeros most later state = begin at drawn
  induction drawn with
  | none => exact start.symm
  | @unit k s s' _ ih =>
    rw [ih (Nat.le_of_succ_le le) start]
    obtain ⟨left, eq⟩ : ∃ left, most - k = left + 1 := ⟨most - k - 1, by omega⟩
    rw [eq, show most - (k + 1) = left by omega]
    rfl
  | @choice k n i s s' s'' _ run ih =>
    obtain ⟨left, eq⟩ : ∃ left, most - k = left + 1 := ⟨most - k - 1, by omega⟩
    rw [ih (Nat.le_of_succ_le le) start, eq] at run
    obtain rfl | positive := Nat.eq_zero_or_pos n
    · cases run
    · rw [below32_zeros positive] at run
      obtain ⟨-, rfl⟩ := Prod.mk.inj (Except.ok.inj run)
      rw [show most - (k + 1) = left by omega]

/-- A counted draw has a result where only zeros are drawn. -/
theorem Within.ok_of_zeros {most : Nat} {x : Draw α} (h : Within most x Q)
    (later : List UInt64) (state : UInt64) :
    ∃ a rest, x.run (.zeros most later state) = .ok (a, rest) ∧ Q a := by
  obtain ⟨k, -, a, rest, run, -, ha⟩ | ⟨-, k, lt, s, drawn, n, positive, run⟩ :=
    h (.zeros most later state)
  · exact ⟨a, rest, run, ha⟩
  · obtain ⟨left, eq⟩ : ∃ left, most - k = left + 1 := ⟨most - k - 1, by omega⟩
    rw [drawn_zeros drawn (Nat.le_of_lt lt), eq, below32_zeros positive] at run
    cases run

end Draw

end TangledGraph
