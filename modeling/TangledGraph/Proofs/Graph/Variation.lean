import TangledGraph.Proofs.Graph.Growth

/-!
# Variation is growth

Whatever words are drawn, the variation of a new learner and the variation of
a new team are paths of steps of growth: learners are made, and only new teams
and new learners change. The actions of new learners come from the set of codes
and the pool of teams. A team that is varied ends well formed.
-/
namespace TangledGraph

open Draw

theorem CodeSet.sample_yields (set : CodeSet) :
    Yields set.sample fun code => code ∈ set.toList := by
  refine Yields.skip fun i => ?_
  split
  case h_1 code found => exact Yields.pure (List.mem_of_getElem? found)
  case h_2 => exact Yields.throw

theorem CodeSet.sampleOther_yields (set : CodeSet) (current : Code) :
    Yields (set.sampleOther current) fun drawn => ∀ code ∈ drawn, code ∈ set.toList :=
  (choose_yields _).mono fun _ h code drawn => List.mem_of_mem_filter (h code drawn)

theorem MutationSettings.varyProgram_yields (m : MutationSettings) (s : ProgramSettings)
    (program : Program) (c : Counters) :
    Yields (m.varyProgram s program c) fun made => ∃ code, made = Program.create c code :=
  Yields.skip fun code => Yields.pure ⟨code, rfl⟩

namespace Stock

variable {s : Settings} {generation : Nat} {base : Counters} {allowed : Action → Prop}

/-- The new action of a learner is a code of the set or a team of the pool. -/
theorem drawAction_yields {pool : List TeamId}
    (codes : ∀ code ∈ s.trainer.actions.toList, allowed (.atomic code))
    (targets : ∀ t ∈ pool, allowed (.team t)) (p : Population) (current : Action)
    (parent : TeamId) (forceAtomic : Bool) :
    Yields (drawAction s p current parent pool forceAtomic) fun drawn =>
      ∀ action ∈ drawn, allowed action := by
  refine Yields.either (Q := fun _ => True) (fun _ => Yields.trivial _)
    (fun _ => Yields.trivial _) fun atomic _ => ?_
  refine Yields.either (Q := fun target => ∀ t ∈ target, t ∈ pool)
    (fun _ => Yields.pure (by simp)) (fun _ => ?_) fun target fromPool => ?_
  · exact (choose_yields _).mono fun _ h t ht => List.mem_of_mem_filter (h t ht)
  cases target with
  | some t => exact Yields.pure (by simpa using targets t (fromPool t rfl))
  | none =>
    cases current with
    | atomic code =>
      refine (s.trainer.actions.sampleOther_yields code).bind fun drawn h => Yields.pure ?_
      rintro action found
      obtain ⟨code, there, rfl⟩ := Option.map_eq_some_iff.1 found
      exact codes code (h code there)
    | team t =>
      refine s.trainer.actions.sample_yields.bind fun code there => Yields.pure ?_
      simpa using codes code there

section Learners

variable {l : LearnerId} {parent : TeamId} {pool : List TeamId} {forceAtomic : Bool}
variable (new : base.learner ≤ l.val)
variable (codes : ∀ code ∈ s.trainer.actions.toList, allowed (.atomic code))
variable (targets : ∀ t ∈ pool, allowed (.team t))
include new

theorem varyProgramOf_path (stock : Stock) :
    Yields (stock.varyProgramOf s l) (Path base allowed stock) := by
  refine Yields.lift_bind fun learner enlisted => ?_
  refine (s.mutation.varyProgram_yields _ _ _).bind fun made h => ?_
  obtain ⟨code, rfl⟩ := h
  rw [Population.getLearner_eq_ok] at enlisted
  exact Yields.pure (.single (.teach new enlisted code))

include codes targets

theorem varyAction_path (stock : Stock) :
    Yields (stock.varyAction s l parent pool forceAtomic) fun varied =>
      Path base allowed stock varied.2 := by
  refine Yields.lift_bind fun learner _ => ?_
  refine (drawAction_yields codes targets _ _ _ _).bind fun drawn ok => ?_
  cases drawn with
  | none => exact Yields.pure .refl
  | some action =>
    simp only
    split
    · exact Yields.pure .refl
    · exact Yields.lift_bind fun q run => Yields.pure (.single (.aim new (ok action rfl) run))

theorem learnerRound_path (stock : Stock) :
    Yields (learnerRound s l parent pool forceAtomic stock)
      (Sum.elim (Path base allowed stock) (Path base allowed stock)) := by
  refine Yields.skip fun program => ?_
  refine Yields.either (Q := Path base allowed stock) (fun _ => varyProgramOf_path new stock)
    (fun _ => Yields.pure .refl) fun middle taught => ?_
  refine Yields.skip fun changes => ?_
  refine Yields.either (Q := fun varied => Path base allowed middle varied.2)
    (fun _ => varyAction_path new codes targets middle) (fun _ => Yields.pure .refl)
    fun varied aimed => Yields.pure ?_
  split
  all_goals exact taught.trans aimed

/-- Only the learner itself changes while it is varied. -/
theorem varyLearner_path (stock : Stock) :
    Yields (varyLearner s stock l parent pool forceAtomic) (Path base allowed stock) := by
  refine Yields.iterate (Path base allowed stock) (fun reached before => ?_) _ .refl
  refine (learnerRound_path new codes targets reached).mono fun outcome after => ?_
  cases outcome
  all_goals exact before.trans after

end Learners

section Teams

variable {t : TeamId} {pool : List TeamId} {learnerPool : List LearnerId}
variable {R : Stock → Stock → Prop}

/-- Deletion keeps what is kept when a learner is taken off. -/
theorem deleteLearners_induction (I : Population → Prop)
    (leave : ∀ {p q l}, I p → p.dropLearner t l = .ok q → I q) (fuel : Nat)
    (probability : Float) {p : Population} (start : I p) :
    Yields (deleteLearners s t fuel probability p) I := by
  induction fuel generalizing probability p with
  | zero => exact Yields.throw
  | succ fuel ih =>
    refine Yields.skip fun again => ?_
    split
    · exact Yields.pure start
    refine Yields.lift_bind fun team _ => ?_
    split
    · exact Yields.pure start
    refine Yields.lift_bind fun candidates _ => Yields.skip fun victim => ?_
    cases victim with
    | none => exact Yields.pure start
    | some victim => exact Yields.lift_bind fun q run => ih _ (leave start run)

/-- Addition keeps what is kept when a learner enters below the limit. -/
theorem addLearners_induction (I : Population → Prop)
    (join : ∀ {p q team l}, I p → p.team? t = some team →
      ¬(0 < s.mutation.maxTeamSize ∧ s.mutation.maxTeamSize ≤ team.learners.length) →
        p.addLearner t l = .ok q → I q) (fuel : Nat) (probability : Float) {p : Population}
    (start : I p) : Yields (addLearners s t learnerPool fuel probability p) I := by
  induction fuel generalizing probability p with
  | zero => exact Yields.throw
  | succ fuel ih =>
    refine Yields.skip fun again => ?_
    split
    · exact Yields.pure start
    refine Yields.lift_bind fun team found => ?_
    rw [Population.getTeam_eq_ok] at found
    dsimp only
    split
    · exact Yields.pure start
    case isFalse below =>
      rw [Bool.and_eq_true, decide_eq_true_eq, decide_eq_true_eq] at below
      refine Yields.skip fun recruit => ?_
      cases recruit with
      | none => exact Yields.pure start
      | some recruit => exact Yields.lift_bind fun q run => ih _ (join start found below run)

/-- A relation from stock to stock that keeps up with the variation of a team,
whatever is done in it: learners enter and leave, and varied copies are made. -/
structure Tracks (s : Settings) (t : TeamId) (pool : List TeamId) (R : Stock → Stock → Prop) :
    Prop where
  refl : ∀ stock, R stock stock
  trans : ∀ {a b c}, R a b → R b c → R a c
  join : ∀ {p q c l}, p.addLearner t l = .ok q → R ⟨p, c⟩ ⟨q, c⟩
  leave : ∀ {p q c l}, p.dropLearner t l = .ok q → R ⟨p, c⟩ ⟨q, c⟩
  copy : ∀ {p q c d member copy generation} (forceAtomic : Bool),
    p.cloneLearner c member generation = .ok (copy, q, d) →
      Yields (varyLearner s ⟨q, d⟩ copy t pool forceAtomic) (R ⟨p, c⟩)

section Tracks

variable (tracks : Tracks s t pool R)
include tracks

theorem Tracks.deleteLearners (fuel : Nat) (probability : Float) (p : Population) :
    Yields (deleteLearners s t fuel probability p) fun q => ∀ c, R ⟨p, c⟩ ⟨q, c⟩ :=
  deleteLearners_induction (fun q => ∀ c, R ⟨p, c⟩ ⟨q, c⟩)
    (fun before run c => tracks.trans (before c) (tracks.leave run)) fuel probability
    fun _ => tracks.refl _

theorem Tracks.addLearners (fuel : Nat) (probability : Float) (p : Population) :
    Yields (addLearners s t learnerPool fuel probability p) fun q => ∀ c, R ⟨p, c⟩ ⟨q, c⟩ :=
  addLearners_induction (fun q => ∀ c, R ⟨p, c⟩ ⟨q, c⟩)
    (fun before _ _ run c => tracks.trans (before c) (tracks.join run)) fuel probability
    fun _ => tracks.refl _

/-- The copy takes the place of a learner that may be on other teams, which
keep it. -/
theorem Tracks.replaceLearner (stock : Stock) (member : LearnerId) :
    Yields (replaceLearner s generation t pool stock member) (R stock) := by
  refine Yields.lift_bind fun atomics _ => Yields.lift_bind fun _ _ => ?_
  refine Yields.lift_bind fun p dropped => Yields.lift_bind fun ⟨copy, q, counters⟩ cloned => ?_
  refine (tracks.copy _ cloned).bind fun varied made => ?_
  refine Yields.lift_bind fun r added => Yields.pure ?_
  exact tracks.trans (tracks.leave dropped) (tracks.trans made (tracks.join added))

theorem Tracks.replaceLearners (ls : List LearnerId) (stock : Stock) :
    Yields (replaceLearners s generation t pool ls stock) (R stock) := by
  induction ls generalizing stock with
  | nil => exact Yields.pure (tracks.refl stock)
  | cons l rest ih =>
    refine Yields.skip fun replaces => ?_
    split
    · refine (tracks.replaceLearner stock l).bind fun next first => ?_
      exact (ih next).mono fun _ => tracks.trans first
    · exact ih stock

theorem Tracks.teamPass (stock : Stock) :
    Yields (teamPass s generation t learnerPool pool stock) (R stock) := by
  refine Yields.lift_bind fun team _ => ?_
  refine (tracks.deleteLearners _ _ _).bind fun p deleted => ?_
  refine (tracks.addLearners _ _ _).bind fun q added => ?_
  refine Yields.lift_bind fun team _ => ?_
  refine (tracks.replaceLearners team.learners _).mono fun _ => ?_
  exact tracks.trans (tracks.trans (deleted _) (added _))

theorem Tracks.teamPasses (n : Nat) (stock : Stock) :
    Yields (teamPasses s generation t learnerPool pool n stock) (R stock) := by
  induction n generalizing stock with
  | zero => exact Yields.pure (tracks.refl stock)
  | succ n ih =>
    refine (tracks.teamPass stock).bind fun next first => ?_
    exact (ih next).mono fun _ => tracks.trans first

/-- No rule for single teams is broken in the end. -/
theorem Tracks.varyTeam (stock : Stock) :
    Yields (varyTeam s generation stock t learnerPool pool) fun varied =>
      R stock varied ∧ varied.population.assertWellFormed t = .ok () := by
  refine Yields.skip fun repetitions => ?_
  refine (tracks.teamPasses repetitions stock).bind fun varied path => ?_
  exact Yields.lift_bind fun _ checked => Yields.pure ⟨path, checked⟩

end Tracks

variable (new : base.team ≤ t.val)
variable (codes : ∀ code ∈ s.trainer.actions.toList, allowed (.atomic code))
variable (targets : ∀ t ∈ pool, allowed (.team t))
include new codes targets

/-- Only the team itself and the copies made for it change. -/
theorem tracks_path :
    Tracks s t pool fun stock next => base ≤ stock.counters → Path base allowed stock next where
  refl _ _ := .refl
  trans first rest le := (first le).trans (rest (le.trans (first le).counters_le))
  join run _ := .single (.join new run)
  leave run _ := .single (.leave new run)
  copy {p q c d member copy generation} forceAtomic cloned := by
    simp only [Population.cloneLearner, Program.duplicate, bind_eq_ok,
      Population.getLearner_eq_ok] at cloned
    obtain ⟨learner, enlisted, cloned⟩ := cloned
    have known : ∃ k program, p.policy? k = some (program, learner.action) :=
      ⟨member, _, Population.policy?_of_learner? enlisted⟩
    have made : Step base allowed ⟨p, c⟩ ⟨q, d⟩ := .enlist _ (.inr known) cloned
    by_cases le : base ≤ c
    · have later : base.learner ≤ copy.val := by
        obtain ⟨rfl, -⟩ := Population.createLearner_outline cloned
        exact le.2.1
      exact (varyLearner_path later codes targets ⟨q, d⟩).mono fun varied path _ => .head made path
    · exact (Yields.trivial _).mono fun _ _ behind => absurd behind le

theorem replaceLearner_path {stock : Stock} (le : base ≤ stock.counters) (member : LearnerId) :
    Yields (replaceLearner s generation t pool stock member) (Path base allowed stock) :=
  ((tracks_path new codes targets).replaceLearner stock member).mono fun _ path => path le

/-- Only the team itself and the copies made for it change while it is varied,
and no rule for single teams is broken in the end. -/
theorem varyTeam_path {stock : Stock} (le : base ≤ stock.counters) :
    Yields (varyTeam s generation stock t learnerPool pool) fun varied =>
      Path base allowed stock varied ∧ varied.population.assertWellFormed t = .ok () :=
  ((tracks_path new codes targets).varyTeam stock).mono fun _ => And.imp_left (· le)

end Teams

end Stock

end TangledGraph
