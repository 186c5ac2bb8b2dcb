import TangledGraph.Proofs.Graph.Capacity
import TangledGraph.Proofs.Graph.WellFormed
import TangledGraph.Proofs.Random.Range
import TangledGraph.Training.Trainer

/-!
# The first population

A stock is steady if it is as generations leave it: the records are exact, all
teams are well formed, every learner is on a team, and its action is allowed.
A trainer starts from a steady stock. Its teams have two learners or more,
because two places of the set of codes are drawn inside of the set.
-/
namespace TangledGraph

open Draw

/-- A code of the set, or a team that may be a target. -/
def Action.Among (set : CodeSet) (targets : TeamId → Prop) : Action → Prop
  | atomic code => code ∈ set.toList
  | team t => targets t

theorem Action.Among.mono {set : CodeSet} {targets targets' : TeamId → Prop} {action : Action}
    (h : action.Among set targets) (imp : ∀ t, targets t → targets' t) :
    action.Among set targets' := by
  cases action with
  | atomic code => exact h
  | team t => exact imp t h

/-- A target is one that actions may have. -/
theorem Action.Among.target {set : CodeSet} {targets : TeamId → Prop} {p : Population}
    (allowed : ∀ {l program action}, p.policy? l = some (program, action) →
      action.Among set targets) {l : LearnerId} {u : TeamId} (leads : p.target? l = some u) :
    targets u := by
  obtain ⟨learner, enlisted, leads⟩ := Option.bind_eq_some_iff.1 leads
  have among : learner.action.Among set targets :=
    allowed (Population.policy?_of_learner? enlisted)
  unfold Learner.target? at leads
  cases action : learner.action with
  | atomic code => simp [action] at leads
  | team v =>
    rw [action] at leads among
    exact Option.some.inj leads ▸ among

/-- What holds of a stock between generations. -/
structure Stock.Steady (allowed : Action → Prop) (s : Stock) : Prop where
  sound : s.Sound
  allowed : ∀ {l program action}, s.population.policy? l = some (program, action) → allowed action
  wellFormed : ∀ {t}, s.population.containsTeam t = true → s.population.WellFormed t
  employed : ∀ {l policy}, s.population.policy? l = some policy → s.population.teamsOf l ≠ []

theorem Stock.steady_empty (allowed : Action → Prop) : Stock.Steady allowed ⟨.empty, {}⟩ := by
  have no_team {t : TeamId} (ht : Population.empty.containsTeam t = true) : False :=
    Nat.not_lt_zero t.val (Stock.sound_empty.below.team ht)
  have no_learner {l : LearnerId} {policy} (hl : Population.empty.policy? l = some policy) :
      False := Nat.not_lt_zero l.val (Stock.sound_empty.below.learner hl)
  exact ⟨Stock.sound_empty, fun hl => (no_learner hl).elim, fun ht => (no_team ht).elim,
    fun hl => (no_learner hl).elim⟩

namespace Trainer

variable {s : Settings}

/-- The codes of the learners of a new team: two at least and no more than it may start
with, the first two from different places of the set if it has as many. -/
structure Crew (s : Settings) (codes : List Code) : Prop where
  listed : ∀ code ∈ codes, code ∈ s.trainer.actions.toList
  two : 2 ≤ codes.length
  most : codes.length ≤ 2 + (s.mutation.initMaxTeamSize - 2)
  apart : 2 ≤ s.trainer.actions.size → ∃ i j code code' rest, i ≠ j ∧
    s.trainer.actions.get? i = some code ∧ s.trainer.actions.get? j = some code' ∧
    codes = code :: code' :: rest

theorem initialCodes_yields (s : Settings) : Yields (initialCodes s) (Crew s) := by
  unfold initialCodes
  extract_lets actions more
  have rest (first : List Code) (there : ∀ code ∈ first, code ∈ actions.toList)
      (two : first.length = 2) (apart : 2 ≤ actions.size → ∃ i j code code', i ≠ j ∧
        actions.get? i = some code ∧ actions.get? j = some code' ∧ first = [code, code']) :
      Yields (more first) (Crew s) := by
    refine (between_yields 0 _).bind fun extra ⟨_, le⟩ => ?_
    refine (Yields.mapM (fun _ => actions.sample_yields) _).bind
      fun drawn ⟨length, h⟩ => Yields.pure ⟨?_, ?_, ?_, ?_⟩
    · simpa [or_imp, forall_and] using ⟨there, h⟩
    · rw [List.length_append, two]
      omega
    · rw [List.length_replicate] at length
      rw [List.length_append, two, length]
      omega
    · intro large
      obtain ⟨i, j, code, code', distinct, found, found', rfl⟩ := apart large
      exact ⟨i, j, code, code', drawn, distinct, found, found', rfl⟩
  split
  · refine (distinctPair_yields _).bind fun ⟨i, j⟩ ⟨hi, hj, distinct⟩ => ?_
    obtain ⟨code, there, found⟩ := CodeSet.get?_of_lt hi
    obtain ⟨code', there', found'⟩ := CodeSet.get?_of_lt hj
    simp only [pure_bind, List.filterMap_cons, found, found', List.filterMap_nil]
    exact rest _ (by simpa using ⟨there, there'⟩) rfl
      fun _ => ⟨i, j, code, code', distinct, found, found', rfl⟩
  case isFalse small =>
    refine actions.sample_yields.bind fun code there => ?_
    refine actions.sample_yields.bind fun code' there' => ?_
    rw [pure_bind]
    exact rest _ (by simpa using ⟨there, there'⟩) rfl fun large => absurd large small

/-- The learners of a new team are made for it. -/
theorem addInitialLearners_path {allowed : Action → Prop} {base : Counters} {t : TeamId}
    (new : base.team ≤ t.val) {codes : List Code}
    (ok : ∀ code ∈ codes, allowed (.atomic code)) (stock : Stock) :
    Yields (addInitialLearners s t codes stock) (Stock.Path base allowed stock) := by
  induction codes generalizing stock with
  | nil => exact Yields.pure .refl
  | cons code codes ih =>
    obtain ⟨first, others⟩ := List.forall_mem_cons.1 ok
    obtain ⟨p, c⟩ := stock
    refine Yields.bind (Q := fun made => ∃ code, made = Program.create c code) ?_ ?_
    · exact Yields.skip fun length => Yields.skip fun code => Yields.pure ⟨code, rfl⟩
    rintro _ ⟨instructions, rfl⟩
    refine Yields.lift_bind fun ⟨l, q, d⟩ created => Yields.lift_bind fun r added => ?_
    exact (ih others ⟨r, d⟩).mono fun made path =>
      .head (.enlist instructions (.inl first) created) (.head (.join new added) path)

/-- Whatever the codes are, the making of learners for a team is growth. -/
theorem addInitialLearners_grows (t : TeamId) (codes : List Code) (stock : Stock) :
    Yields (addInitialLearners s t codes stock) (Stock.Path {} (fun _ => True) stock) :=
  addInitialLearners_path (Nat.zero_le _) (fun _ _ => trivial) stock

/-- Each code gets a learner. -/
theorem addInitialLearners_length (t : TeamId) (codes : List Code) (stock : Stock) :
    Yields (addInitialLearners s t codes stock) fun made =>
      (made.population.members t).length =
        (stock.population.members t).length + codes.length := by
  induction codes generalizing stock with
  | nil => exact Yields.pure rfl
  | cons code codes ih =>
    obtain ⟨p, c⟩ := stock
    refine Yields.skip fun (program, c') => ?_
    refine Yields.lift_bind fun ⟨l, q, d⟩ created => Yields.lift_bind fun r added => ?_
    have same : q.members t = p.members t :=
      congrFun (congrArg Outline.members (Population.createLearner_outline created).2.2.2) t
    have larger := Population.length_members_addLearner added
    refine (ih ⟨r, d⟩).mono fun made length => ?_
    simp only [length, larger, same, List.length_cons]
    omega

/-- All learners are on a team. -/
theorem addInitialLearners_employed (t : TeamId) (codes : List Code) (stock : Stock)
    (employed : ∀ {l policy}, stock.population.policy? l = some policy →
      stock.population.teamsOf l ≠ []) :
    Yields (addInitialLearners s t codes stock) fun made =>
      ∀ {l policy}, made.population.policy? l = some policy →
        made.population.teamsOf l ≠ [] := by
  induction codes generalizing stock with
  | nil => exact Yields.pure employed
  | cons code codes ih =>
    obtain ⟨p, c⟩ := stock
    refine Yields.skip fun (program, c') => ?_
    refine Yields.lift_bind fun ⟨l, q, d⟩ created => Yields.lift_bind fun r added => ih ⟨r, d⟩ ?_
    have enlisted := (Population.createLearner_outline created).2.2.2
    have joined := (Population.addLearner_outline added).2.2
    rw [enlisted] at joined
    intro k policy hk
    rw [← Population.outline_policy? r, joined] at hk
    rw [← Population.outline_teamsOf r, joined]
    by_cases same : k = l
    · subst same
      simp [Outline.join]
    · have before : p.policy? k = some policy := by
        simpa [Outline.join, Outline.enlist, same] using hk
      simpa [Outline.join, Outline.enlist, Outline.refer, same] using employed before

/-- Where no action is a team, two learners make a team well formed. -/
theorem wellFormed_of_atomic {set : CodeSet} {p : Population} (exact : p.outline.Exact)
    (atomic : ∀ {l program action}, p.policy? l = some (program, action) →
      action.Among set fun _ => False) {t : TeamId} (two : 2 ≤ (p.members t).length) :
    p.WellFormed t := by
  have code {l} (hl : l ∈ p.members t) :
      ∃ program code, p.policy? l = some (program, .atomic code) := by
    obtain ⟨-, learner, enlisted⟩ := Population.resolve_member exact hl
    have policy := Population.policy?_of_learner? enlisted
    cases action : learner.action with
    | atomic code => exact ⟨learner.program, code, action ▸ policy⟩
    | team u =>
      have : (Action.team u).Among set fun _ => False := atomic (action ▸ policy)
      exact False.elim this
  have some_atomic : ∃ l ∈ p.members t, ∃ program code,
      p.policy? l = some (program, .atomic code) := by
    obtain ⟨l, hl⟩ := List.exists_mem_of_length_pos (Nat.lt_of_lt_of_le Nat.zero_lt_two two)
    exact ⟨l, hl, code hl⟩
  have foreign : ∀ l ∈ p.members t, p.target? l ≠ some t := by
    intro l hl own
    obtain ⟨program, code, policy⟩ := code hl
    rw [Population.target?_eq, Outline.target?_of_policy? policy] at own
    simp at own
  exact ⟨two, exact.nodup_members t, some_atomic, foreign⟩

/-- One more team is made of learners with codes. -/
theorem initialTeams_yields {stock : Stock} (n : Nat)
    (steady : stock.Steady (Action.Among s.trainer.actions fun _ => False)) :
    Yields (initialTeams s n stock)
      (Stock.Steady (Action.Among s.trainer.actions fun _ => False)) := by
  induction n generalizing stock with
  | zero => exact Yields.pure steady
  | succ n ih =>
    obtain ⟨p, c⟩ := stock
    have founded := (Stock.Extends.refl steady.sound steady.allowed).found 0
    have eq := Population.createTeam_new steady.sound.absent 0
    have teamsOf : (p.createTeam c 0).2.1.teamsOf = p.teamsOf := congrArg Outline.teamsOf eq
    have policy : (p.createTeam c 0).2.1.policy? = p.policy? := congrArg Outline.policy? eq
    have employed {l x} (hl : (p.createTeam c 0).2.1.policy? l = some x) :
        (p.createTeam c 0).2.1.teamsOf l ≠ [] := by
      have before : p.policy? l = some x := (congrFun policy l).symm.trans hl
      exact (congrFun teamsOf l).trans_ne (steady.employed before)
    refine (initialCodes_yields s).bind fun codes ⟨there, two, _, _⟩ => ?_
    have new : c.team ≤ (TeamId.mk c.team).val := le_rfl
    have ok : ∀ code ∈ codes,
        (Action.atomic code).Among s.trainer.actions fun _ => False := there
    refine ((addInitialLearners_path new ok _).and ((addInitialLearners_length _ codes _).and
      (addInitialLearners_employed _ codes _ employed))).bind
        fun made ⟨path, length, employed'⟩ => ih ?_
    have grown := founded.path le_rfl path
    have wellFormed {t} (ht : made.population.containsTeam t = true) :
        made.population.WellFormed t := by
      obtain rfl | before := path.team_of_found steady.sound ht
      · have size : (made.population.members ⟨c.team⟩).length = 0 + codes.length :=
          length.trans (congrArg (fun ls => ls.length + codes.length)
            (p.members_createTeam_self c 0))
        have two' : 2 ≤ (made.population.members ⟨c.team⟩).length := by
          rw [size]
          omega
        exact wellFormed_of_atomic grown.sound.exact grown.allowed two'
      · exact (Population.wellFormed_iff steady.sound.exact grown.part before).1
          (steady.wellFormed before)
    exact ⟨grown.sound, grown.allowed, wellFormed, employed'⟩

end Trainer

end TangledGraph
