import TangledGraph.Proofs.Graph.Growth

/-!
# New things have new identities

Growth gives every new team, learner and version of a program an identity that
was not handed out before. So no two learners share the identity of a program,
and what one stock has and an earlier one has not was named after the earlier one.
-/
namespace TangledGraph.Stock

variable {base : Counters} {allowed : Action → Prop} {old now next : Stock}

/-- A step changes the policy of one learner at most: that learner is made in this
step or may be changed, and its program is one that it has already, or a new one. -/
theorem Step.policy?_update (h : Step base allowed now next) :
    next.population.policy? = now.population.policy? ∨
      ∃ l program action,
        next.population.policy? =
          Function.update now.population.policy? l (some (program, action)) ∧
        (l.val = now.counters.learner ∨ base.learner ≤ l.val) ∧
        (program.id.val = now.counters.program ∧
            next.counters.program = now.counters.program + 1 ∨
          ∃ action', now.population.policy? l = some (program, action')) := by
  cases h with
  | @enlist p q c d l action generation code known run =>
    obtain ⟨rfl, rfl, -, eq⟩ := Population.createLearner_outline run
    exact .inr ⟨_, _, _, congrArg Outline.policy? eq, .inl rfl, .inl ⟨rfl, rfl⟩⟩
  | join new run => exact .inl (congrArg Outline.policy? (Population.addLearner_outline run).2.2)
  | leave new run => exact .inl (congrArg Outline.policy? (Population.dropLearner_outline run).2)
  | @teach p c l learner new enlisted code =>
    exact .inr ⟨l, _, _, congrArg Outline.policy? (Population.setProgram_outline enlisted _),
      .inr new, .inl ⟨rfl, rfl⟩⟩
  | @aim p q c l action new ok run =>
    obtain ⟨program, old, before, -, eq⟩ := Population.setAction_outline run
    exact .inr ⟨l, _, _, congrArg Outline.policy? eq, .inr new, .inr ⟨old, before⟩⟩

/-- Every program has an identity of its own, which was handed out. -/
structure Named (s : Stock) : Prop where
  below : ∀ {l program action}, s.population.policy? l = some (program, action) →
    program.id.val < s.counters.program
  own : ∀ {l k policy policy'}, s.population.policy? l = some policy →
    s.population.policy? k = some policy' → policy.1.id = policy'.1.id → l = k

theorem named_empty : Named ⟨.empty, {}⟩ := by
  have no_learner {l : LearnerId} {policy} (hl : Population.empty.policy? l = some policy) :
      False := Nat.not_lt_zero l.val (sound_empty.below.learner hl)
  exact ⟨fun hl => (no_learner hl).elim, fun hl => (no_learner hl).elim⟩

/-- What is left after a removal is still named. -/
theorem Named.of_policy (h : Named now)
    (policy : ∀ {l x}, next.population.policy? l = some x → now.population.policy? l = some x)
    (le : now.counters ≤ next.counters) : Named next where
  below hl := (h.below (policy hl)).trans_le le.2.2
  own hl hk same := h.own (policy hl) (policy hk) same

theorem Named.step (h : Named now) (step : Step base allowed now next) : Named next := by
  have le := step.counters_le.2.2
  obtain same | ⟨m, taught, aimed, update, -, known⟩ := step.policy?_update
  · exact h.of_policy (fun hl => (congrFun same _).symm.trans hl) step.counters_le
  -- Each program is one of the learner before, or the one with the next identity.
  have origin {l program action} (hl : next.population.policy? l = some (program, action)) :
      (l = m ∧ program.id.val = now.counters.program ∧
          next.counters.program = now.counters.program + 1) ∨
        ∃ action', now.population.policy? l = some (program, action') := by
    rw [update, Function.update_apply] at hl
    split at hl
    case isTrue same =>
      obtain ⟨rfl, -⟩ := Prod.mk.inj (Option.some.inj hl)
      obtain new | before := known
      · exact .inl ⟨same, new⟩
      · exact .inr (same ▸ before)
    case isFalse => exact .inr ⟨action, hl⟩
  constructor
  · intro l program action hl
    obtain ⟨-, eq, more⟩ | ⟨_, before⟩ := origin hl
    · omega
    · exact (h.below before).trans_le le
  · rintro l k ⟨program, action⟩ ⟨program', action'⟩ hl hk (same : program.id = program'.id)
    obtain ⟨rfl, eq, -⟩ | ⟨_, before⟩ := origin hl <;>
      obtain ⟨rfl, eq', -⟩ | ⟨_, before'⟩ := origin hk
    · rfl
    · have := h.below before'
      rw [← same] at this
      omega
    · have := h.below before
      rw [same] at this
      omega
    · exact h.own before before' same

theorem Named.path (h : Named now) (path : Path base allowed now next) : Named next := by
  induction path with
  | refl => exact h
  | tail _ step ih => exact ih.step step

theorem Named.found (h : Named now) (generation : Nat) :
    Named ⟨(now.population.createTeam now.counters generation).2.1,
      (now.population.createTeam now.counters generation).2.2⟩ := by
  have policy := congrArg Outline.policy?
    (Population.createTeam_outline now.population now.counters generation)
  refine h.of_policy (fun hl => (congrFun policy _).symm.trans hl) ?_
  simp [Population.createTeam, Counters.newTeam, Counters.le_def]

/-- What a stock has of an earlier one is as it was. All the rest is new: its
identities were not handed out before. -/
structure Renews (old now : Stock) : Prop where
  counters_le : old.counters ≤ now.counters
  team : ∀ {t}, now.population.containsTeam t = true →
    old.population.containsTeam t = true ∨ old.counters.team ≤ t.val
  policy : ∀ {l policy}, now.population.policy? l = some policy →
    old.population.policy? l = some policy ∨
      old.counters.learner ≤ l.val ∧ old.counters.program ≤ policy.1.id.val

namespace Renews

/-- A part with counters that are nowhere behind has nothing new. -/
theorem of_partOf (part : now.population.outline.PartOf old.population.outline)
    (le : old.counters ≤ now.counters) : Renews old now where
  counters_le := le
  team ht := .inl (part.teams ht)
  policy hl := .inl (part.policy hl)

theorem refl (s : Stock) : Renews s s := of_partOf (.refl _) le_rfl

theorem trans (h : Renews old now) (h' : Renews now next) : Renews old next where
  counters_le := h.counters_le.trans h'.counters_le
  team ht := (h'.team ht).elim h.team fun new => .inr (h.counters_le.1.trans new)
  policy hl := (h'.policy hl).elim h.policy fun ⟨new, new'⟩ =>
    .inr ⟨h.counters_le.2.1.trans new, h.counters_le.2.2.trans new'⟩

theorem step (h : Renews old now) (below : old.population.outline.Below old.counters)
    (step : Step old.counters allowed now next) : Renews old next where
  counters_le := h.counters_le.trans step.counters_le
  team ht := h.team ((congrFun step.teams_eq _).symm.trans ht)
  policy {l policy} hl := by
    have le := h.counters_le
    obtain same | ⟨m, program, action, update, new, known⟩ := step.policy?_update
    · exact h.policy ((congrFun same l).symm.trans hl)
    rw [update, Function.update_apply] at hl
    split at hl
    case isFalse => exact h.policy hl
    case isTrue same =>
      subst same
      obtain rfl := Option.some.inj hl
      have later : old.counters.learner ≤ l.val := by
        obtain eq | ge := new
        · exact eq ▸ le.2.1
        · exact ge
      obtain ⟨eq, -⟩ | ⟨_, before⟩ := known
      · exact .inr ⟨later, eq ▸ le.2.2⟩
      -- A learner that only gets another action has the program that it was made with.
      · obtain there | ⟨-, new'⟩ := h.policy before
        · exact absurd (below.learner there) (Nat.not_lt.2 later)
        · exact .inr ⟨later, new'⟩

theorem path (h : Renews old now) (below : old.population.outline.Below old.counters)
    (path : Path old.counters allowed now next) : Renews old next := by
  induction path with
  | refl => exact h
  | tail _ step ih => exact ih.step below step

theorem found (h : Renews old now) (generation : Nat) :
    Renews old ⟨(now.population.createTeam now.counters generation).2.1,
      (now.population.createTeam now.counters generation).2.2⟩ := by
  have eq := Population.createTeam_outline now.population now.counters generation
  have le : now.counters ≤ (now.population.createTeam now.counters generation).2.2 := by
    simp [Population.createTeam, Counters.newTeam, Counters.le_def]
  refine ⟨h.counters_le.trans le, fun {t} ht => ?_, fun {l policy} hl => ?_⟩
  · have teams := congrFun (congrArg Outline.teams eq) t
    rw [← Population.outline_teams, teams] at ht
    simp only [Outline.found, Function.update_apply] at ht
    split at ht
    case isTrue same => exact .inr (same ▸ h.counters_le.1)
    case isFalse => exact h.team ht
  · exact h.policy ((congrFun (congrArg Outline.policy? eq) l).symm.trans hl)

end Renews

end TangledGraph.Stock
