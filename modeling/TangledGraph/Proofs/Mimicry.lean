import TangledGraph.Proofs.Random.Safety

/-!
# Computations that go alike

A computation mimics another one if it gives a related result where the other gives
a result, and does not end where the other does not. Nothing is said of where the
other one has a different fault. Mimicry is put together along the steps, so that
a computation does not go wrong if it mimics one that does not.
-/
namespace TangledGraph

section Faults

variable {α β γ δ : Type} {R : α → β → Prop} {S : γ → δ → Prop}

/-- The first computation does as the second one does, up to a relation of results. -/
structure Mimics (R : α → β → Prop) (x : Except Fault α) (y : Except Fault β) : Prop where
  result : ∀ b, y = .ok b → ∃ a, x = .ok a ∧ R a b
  endless : y = .error .endless → x = .error .endless

protected theorem Mimics.pure {a : α} {b : β} (h : R a b) : Mimics R (pure a) (pure b) where
  result := by
    rintro b' ⟨⟩
    exact ⟨a, rfl, h⟩
  endless := nofun

/-- A fault of any other kind may be followed by anything. -/
theorem Mimics.faulty {x : Except Fault α} {y : Except Fault β} {fault : Fault}
    (fails : y = .error fault) (ends : fault ≠ .endless) : Mimics R x y where
  result b run := by simp [fails] at run
  endless run := by
    obtain rfl := Except.error.inj (fails.symm.trans run)
    exact absurd rfl ends

protected theorem Mimics.bind {x : Except Fault α} {y : Except Fault β} {f : α → Except Fault γ}
    {g : β → Except Fault δ} (first : Mimics R x y) (next : ∀ a b, R a b → Mimics S (f a) (g b)) :
    Mimics S (x >>= f) (y >>= g) where
  result d run := by
    obtain ⟨b, hy, hg⟩ := bind_eq_ok.1 run
    obtain ⟨a, hx, related⟩ := first.result b hy
    obtain ⟨c, hf, related'⟩ := (next a b related).result d hg
    exact ⟨c, bind_eq_ok.2 ⟨a, hx, hf⟩, related'⟩
  endless run := by
    cases hy : y with
    | error fault =>
      have same : fault = .endless := by simpa [hy, bind, Except.bind] using run
      rw [first.endless (same ▸ hy)]
      rfl
    | ok b =>
      obtain ⟨a, hx, related⟩ := first.result b hy
      rw [hx]
      exact (next a b related).endless (by simpa [hy, bind, Except.bind] using run)

/-- Chains with the same first link. -/
protected theorem Mimics.skip {α : Type} {x : Except Fault α} {f : α → Except Fault γ}
    {g : α → Except Fault δ} (next : ∀ a, Mimics S (f a) (g a)) :
    Mimics S (x >>= f) (x >>= g) :=
  Mimics.bind (R := Eq) ⟨fun a run => ⟨a, run, rfl⟩, id⟩ fun a _ same => same ▸ next a

/-- Folds mimic each other if their steps do. -/
protected theorem Mimics.foldlM {ι : Type} {f : α → ι → Except Fault α}
    {g : β → ι → Except Fault β} (step : ∀ a b i, R a b → Mimics R (f a i) (g b i))
    (is : List ι) {a : α} {b : β} (h : R a b) : Mimics R (is.foldlM f a) (is.foldlM g b) := by
  induction is generalizing a b with
  | nil => exact Mimics.pure h
  | cons i is ih => exact (step a b i h).bind fun _ _ => ih

end Faults

namespace Draw

variable {α β γ δ σ τ : Type} {R : α → β → Prop} {S : γ → δ → Prop} {T : σ → τ → Prop}

/-- With the same words to read, the first draw does as the second one does, and
it reads as many of them. -/
def Follows (R : α → β → Prop) (x : Draw α) (y : Draw β) : Prop :=
  ∀ stream, Mimics (fun a b => R a.1 b.1 ∧ a.2 = b.2) (x.run stream) (y.run stream)

protected theorem Follows.pure {a : α} {b : β} (h : R a b) : Follows R (pure a) (pure b) :=
  fun _ => Mimics.pure ⟨h, rfl⟩

theorem Follows.endless : Follows R (throw .endless) (throw .endless) :=
  fun _ => ⟨nofun, fun _ => rfl⟩

protected theorem Follows.bind {x : Draw α} {y : Draw β} {f : α → Draw γ} {g : β → Draw δ}
    (first : Follows R x y) (next : ∀ a b, R a b → Follows S (f a) (g b)) :
    Follows S (x >>= f) (y >>= g) := by
  intro stream
  rw [StateT.run_bind, StateT.run_bind]
  refine (first stream).bind ?_
  rintro ⟨a, rest⟩ ⟨b, rest'⟩ ⟨related, rfl⟩
  exact next a b related rest

/-- Draws with the same first step. -/
protected theorem Follows.skip {α : Type} {x : Draw α} {f : α → Draw γ} {g : α → Draw δ}
    (next : ∀ a, Follows S (f a) (g a)) : Follows S (x >>= f) (x >>= g) := by
  intro stream
  rw [StateT.run_bind, StateT.run_bind]
  exact Mimics.skip fun drawn => next drawn.1 drawn.2

protected theorem Follows.lift_bind {x : Except Fault α} {y : Except Fault β} {f : α → Draw γ}
    {g : β → Draw δ} (first : Mimics R x y) (next : ∀ a b, R a b → Follows S (f a) (g b)) :
    Follows S (liftM x >>= f) (liftM y >>= g) :=
  Follows.bind (fun _ => first.bind fun _ _ related => Mimics.pure ⟨related, rfl⟩) next

protected theorem Follows.ite {c : Prop} [Decidable c] {x x' : Draw α} {y y' : Draw β}
    (first : Follows R x y) (second : Follows R x' y') :
    Follows R (if c then x else x') (if c then y else y') := by
  split
  · exact first
  · exact second

/-- Two ways to the same rest of a draw. -/
protected theorem Follows.either {c : Prop} [Decidable c] {x x' : Draw α} {y y' : Draw β}
    {f : α → Draw γ} {g : β → Draw δ} (first : Follows R x y) (second : Follows R x' y')
    (next : ∀ a b, R a b → Follows S (f a) (g b)) :
    Follows S (if c then x >>= f else x' >>= f) (if c then y >>= g else y' >>= g) :=
  (first.bind next).ite (second.bind next)

/-- Loops follow each other if their rounds do. -/
protected theorem Follows.iterate {round : σ → Draw (σ ⊕ α)} {round' : τ → Draw (τ ⊕ β)}
    (each : ∀ s t, T s t → Follows (Sum.LiftRel T R) (round s) (round' t)) (fuel : Nat)
    {s : σ} {t : τ} (h : T s t) : Follows R (iterate round fuel s) (iterate round' fuel t) := by
  induction fuel generalizing s t with
  | zero => exact Follows.endless
  | succ fuel ih =>
    refine (each s t h).bind fun outcome outcome' related => ?_
    cases related with
    | inl h' => exact ih h'
    | inr h' => exact Follows.pure h'

/-- What follows a draw that does not go wrong does not go wrong, and its results
are related to what that one gives. -/
theorem Faultless.follow {x : Draw α} {y : Draw β} {Q : β → Prop} (h : Faultless y Q)
    (follows : Follows R x y) : Faultless x fun a => ∃ b, R a b ∧ Q b := by
  intro stream
  obtain ⟨b, rest, run, before, hb⟩ | ⟨run, -⟩ := h stream
  · obtain ⟨⟨a, rest'⟩, run', related, rfl⟩ := (follows stream).result _ run
    exact .inl ⟨a, rest', run', before, b, related, hb⟩
  · exact .inr ⟨(follows stream).endless run, stream, .refl, trivial⟩

end Draw

end TangledGraph
