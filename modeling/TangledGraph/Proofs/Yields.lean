import TangledGraph.Random.Draw
import Mathlib.Tactic.Lemma

/-!
# What computations yield

A computation of this library ends in a result or in a fault, and a draw reads
random words on its way. Statements about results hold for every stream: what
a draw yields is a property of all its results, whichever words it reads, and
is put together along the steps of the draw. A loop that ends by chance keeps
an invariant from round to round. A draw that never faults gives a result on
every stream.
-/
namespace TangledGraph

section Faults

variable {α β : Type}

/-- A chain gives a result exactly if both of its links do. -/
theorem bind_eq_ok {x : Except Fault α} {f : α → Except Fault β} {b : β} :
    x >>= f = .ok b ↔ ∃ a, x = .ok a ∧ f a = .ok b := by
  cases x <;> simp [bind, Except.bind]

theorem map_eq_ok {x : Except Fault α} {f : α → β} {b : β} :
    f <$> x = .ok b ↔ ∃ a, x = .ok a ∧ f a = b := by
  cases x <;> simp [Functor.map, Except.map]

theorem map_eq_error {x : Except Fault α} {f : α → β} {fault : Fault} :
    f <$> x = .error fault ↔ x = .error fault := by
  cases x <;> simp [Functor.map, Except.map]

@[simp] theorem pure_eq_ok {a b : α} : (pure a : Except Fault α) = .ok b ↔ a = b := by
  simp [pure, Except.pure]

@[simp] theorem throw_ne_ok {fault : Fault} {a : α} : (throw fault : Except Fault α) ≠ .ok a := by
  nofun

theorem ok_of_toOption {ε α : Type} {x : Except ε α} {a : α} (h : x.toOption = some a) :
    x = .ok a := by
  cases x with
  | error e => cases h
  | ok b => exact congrArg Except.ok (Option.some.inj h)

/-- The fault that a computation ends in, if it does. -/
def fault? : Except Fault α → Option Fault
  | .ok _ => none
  | .error fault => some fault

theorem error_of_fault? {x : Except Fault α} {fault : Fault} (h : fault? x = some fault) :
    x = .error fault := by
  cases x with
  | ok a => cases h
  | error other => exact congrArg Except.error (Option.some.inj h)

/-- A fold that gives a result keeps what each of its steps keeps. -/
theorem foldlM_induction {step : β → α → Except Fault β} (I : β → Prop) {xs : List α}
    (keep : ∀ a ∈ xs, ∀ b b', I b → step b a = .ok b' → I b') {b b' : β} (h : I b)
    (run : xs.foldlM step b = .ok b') : I b' := by
  induction xs generalizing b with
  | nil =>
    simp only [List.foldlM_nil, pure_eq_ok] at run
    exact run ▸ h
  | cons a xs ih =>
    simp only [List.foldlM_cons, bind_eq_ok] at run
    obtain ⟨next, first, rest⟩ := run
    obtain ⟨now, later⟩ := List.forall_mem_cons.1 keep
    exact ih later (now b next h first) rest

/-- A filter whose condition can be found out for every element. -/
theorem filterM_ok {f : α → Except Fault Bool} {keep : α → Bool} {xs : List α}
    (each : ∀ a ∈ xs, f a = .ok (keep a)) : xs.filterM f = .ok (xs.filter keep) := by
  have onto (kept : List α) :
      xs.filterAuxM f kept = .ok ((xs.filter keep).reverse ++ kept) := by
    induction xs generalizing kept with
    | nil => rfl
    | cons a xs ih =>
      obtain ⟨first, others⟩ := List.forall_mem_cons.1 each
      rw [List.filterAuxM, first, List.filter_cons]
      refine (ih others _).trans ?_
      cases keep a <;> simp
  rw [List.filterM, onto]
  simp [bind, Except.bind, pure, Except.pure]

end Faults

namespace Draw

variable {α β σ : Type} {P : β → Prop} {Q : α → Prop}

/-- Whatever words are read, a result of the draw has the property. -/
def Yields (x : Draw α) (Q : α → Prop) : Prop :=
  ∀ stream a rest, x.run stream = .ok (a, rest) → Q a

protected theorem Yields.pure {a : α} (h : Q a) : Yields (pure a) Q := by
  intro stream b rest run
  simp only [StateT.run_pure, pure_eq_ok, Prod.mk.injEq] at run
  exact run.1 ▸ h

protected theorem Yields.throw {fault : Fault} : Yields (throw fault) Q := by
  intro stream a rest run
  simp [MonadExcept.throw, throwThe, MonadExceptOf.throw, StateT.lift, StateT.run, bind,
    Except.bind] at run

protected theorem Yields.bind {x : Draw α} {f : α → Draw β} (first : Yields x Q)
    (next : ∀ a, Q a → Yields (f a) P) : Yields (x >>= f) P := by
  intro stream b rest run
  rw [StateT.run_bind, bind_eq_ok] at run
  obtain ⟨⟨a, middle⟩, hx, hf⟩ := run
  exact next a (first stream a middle hx) middle b rest hf

/-- What the first step yields plays no part. -/
protected theorem Yields.skip {x : Draw α} {f : α → Draw β} (next : ∀ a, Yields (f a) P) :
    Yields (x >>= f) P :=
  Yields.bind (Q := fun _ => True) (fun _ _ _ _ => trivial) fun a _ => next a

/-- Two ways to the same rest of a draw. -/
protected theorem Yields.either {c : Prop} [Decidable c] {x y : Draw α} {f : α → Draw β}
    (first : c → Yields x Q) (second : ¬c → Yields y Q) (next : ∀ a, Q a → Yields (f a) P) :
    Yields (if c then x >>= f else y >>= f) P := by
  split
  case isTrue h => exact Yields.bind (first h) next
  case isFalse h => exact Yields.bind (second h) next

theorem run_bind_eq_ok {x : Draw α} {f : α → Draw β} {stream : Stream} {drawn : β × Stream} :
    (x >>= f).run stream = .ok drawn ↔
      ∃ a rest, x.run stream = .ok (a, rest) ∧ (f a).run rest = .ok drawn := by
  rw [StateT.run_bind, bind_eq_ok, Prod.exists]

/-- A step that draws nothing. -/
theorem run_lift_bind_eq_ok {x : Except Fault α} {f : α → Draw β} {stream : Stream}
    {drawn : β × Stream} :
    (liftM x >>= f).run stream = .ok drawn ↔ ∃ a, x = .ok a ∧ (f a).run stream = .ok drawn := by
  cases x with
  | error fault =>
    simp only [reduceCtorEq, false_and, exists_false, iff_false]
    exact nofun
  | ok a =>
    simp only [Except.ok.injEq, exists_eq_left']
    rfl

protected theorem Yields.lift {x : Except Fault α} (h : ∀ a, x = .ok a → Q a) :
    Yields (liftM x) Q := by
  intro stream a rest run
  rw [← bind_pure (liftM x : Draw α), run_lift_bind_eq_ok] at run
  obtain ⟨b, eq, last⟩ := run
  simp only [StateT.run_pure, pure_eq_ok, Prod.mk.injEq] at last
  exact last.1 ▸ h b eq

protected theorem Yields.lift_bind {x : Except Fault α} {f : α → Draw β}
    (next : ∀ a, x = .ok a → Yields (f a) P) : Yields (liftM x >>= f) P :=
  Yields.bind (Yields.lift fun _ => id) next

protected theorem Yields.mono {x : Draw α} {Q' : α → Prop} (h : Yields x Q)
    (imp : ∀ a, Q a → Q' a) : Yields x Q' :=
  fun stream a rest run => imp a (h stream a rest run)

protected theorem Yields.and {x : Draw α} {Q' : α → Prop} (h : Yields x Q) (h' : Yields x Q') :
    Yields x fun a => Q a ∧ Q' a :=
  fun stream a rest run => ⟨h stream a rest run, h' stream a rest run⟩

protected theorem Yields.trivial (x : Draw α) : Yields x fun _ => True := fun _ _ _ _ => True.intro

/-- A loop keeps its invariant in every round that goes on, and ends in a
result of its last round. -/
protected theorem Yields.iterate {round : σ → Draw (σ ⊕ α)} (I : σ → Prop)
    (keep : ∀ state, I state → Yields (round state) (Sum.elim I Q)) (fuel : Nat) {state : σ}
    (start : I state) : Yields (iterate round fuel state) Q := by
  induction fuel generalizing state with
  | zero => exact Yields.throw
  | succ fuel ih =>
    refine Yields.bind (keep state start) fun outcome h => ?_
    cases outcome with
    | inl state => exact ih h
    | inr result => exact Yields.pure h

/-- A fold keeps what each of its steps keeps. -/
protected theorem Yields.foldlM {step : β → α → Draw β} (I : β → Prop)
    (keep : ∀ b a, I b → Yields (step b a) I) (xs : List α) {b : β} (start : I b) :
    Yields (xs.foldlM step b) I := by
  induction xs generalizing b with
  | nil => exact Yields.pure start
  | cons a xs ih => exact Yields.bind (keep b a start) fun _ => ih

/-- The results of a sequence of draws are as many, and each is a result of one of them. -/
protected theorem Yields.mapM {f : β → Draw α} (each : ∀ b, Yields (f b) Q) (bs : List β) :
    Yields (bs.mapM f) fun results => results.length = bs.length ∧ ∀ a ∈ results, Q a := by
  induction bs with
  | nil => exact Yields.pure (by simp)
  | cons b bs ih =>
    rw [List.mapM_cons]
    refine (each b).bind fun a ha => ih.bind fun rest ⟨length, h⟩ => Yields.pure ?_
    exact ⟨congrArg (· + 1) length, List.forall_mem_cons.2 ⟨ha, h⟩⟩

theorem choose_yields (xs : List α) : Yields (choose xs) fun chosen => ∀ a ∈ chosen, a ∈ xs := by
  unfold choose
  split
  · exact Yields.pure (by simp)
  · exact Yields.skip fun i => Yields.pure fun a ha => List.mem_of_getElem? ha

/-- Whatever words are read, there is a result, and it has the property. -/
def Gives (x : Draw α) (Q : α → Prop) : Prop :=
  ∀ stream, ∃ a rest, x.run stream = .ok (a, rest) ∧ Q a

protected theorem Gives.pure {a : α} (h : Q a) : Gives (pure a) Q :=
  fun stream => ⟨a, stream, rfl, h⟩

protected theorem Gives.bind {x : Draw α} {f : α → Draw β} (first : Gives x Q)
    (next : ∀ a, Q a → Gives (f a) P) : Gives (x >>= f) P := by
  intro stream
  obtain ⟨a, middle, hx, ha⟩ := first stream
  obtain ⟨b, rest, hf, hb⟩ := next a ha middle
  exact ⟨b, rest, by rw [StateT.run_bind, bind_eq_ok]; exact ⟨_, hx, hf⟩, hb⟩

protected theorem Gives.lift {x : Except Fault α} {a : α} (run : x = .ok a) (h : Q a) :
    Gives (liftM x) Q :=
  fun _ => ⟨a, _, by rw [run]; rfl, h⟩

protected theorem Gives.mono {x : Draw α} {Q' : α → Prop} (h : Gives x Q)
    (imp : ∀ a, Q a → Q' a) : Gives x Q' := by
  intro stream
  obtain ⟨a, rest, run, ha⟩ := h stream
  exact ⟨a, rest, run, imp a ha⟩

protected theorem Gives.and {x : Draw α} {Q' : α → Prop} (h : Gives x Q) (h' : Yields x Q') :
    Gives x fun a => Q a ∧ Q' a := by
  intro stream
  obtain ⟨a, rest, run, ha⟩ := h stream
  exact ⟨a, rest, run, ha, h' stream a rest run⟩

/-- Two ways to the same rest of a draw. -/
protected theorem Gives.either {c : Prop} [Decidable c] {x y : Draw α} {f : α → Draw β}
    (first : c → Gives x Q) (second : ¬c → Gives y Q) (next : ∀ a, Q a → Gives (f a) P) :
    Gives (if c then x >>= f else y >>= f) P := by
  split
  case isTrue h => exact (first h).bind next
  case isFalse h => exact (second h).bind next

/-- A fold gives a result if each of its steps keeps what the next one needs. -/
protected theorem Gives.foldlM {step : β → α → Draw β} (I : β → Prop)
    (keep : ∀ b a, I b → Gives (step b a) I) (xs : List α) {b : β} (start : I b) :
    Gives (xs.foldlM step b) I := by
  induction xs generalizing b with
  | nil => exact Gives.pure start
  | cons a xs ih => exact Gives.bind (keep b a start) fun _ => ih

theorem chance_gives (p : Float) : Gives (chance p) fun _ => True :=
  fun _ => ⟨_, _, rfl, trivial⟩

end Draw

end TangledGraph
