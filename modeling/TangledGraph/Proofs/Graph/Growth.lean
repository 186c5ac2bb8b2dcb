import Mathlib.Logic.Relation
import Mathlib.Data.Nat.Basic
import Mathlib.Order.Basic
import TangledGraph.Graph.Variation
import TangledGraph.Proofs.Graph.Removal

/-!
# Growth of a population

Variation is a sequence of steps: a learner is made, enters or leaves a team,
or gets another program or action. A base of counters tells old identities
from new ones: teams are changed only if they are new, and learners get
another policy only if they are. So the old population stays a part of the new
one, whatever the steps are.
-/
namespace TangledGraph

namespace Counters

/-- Counters that are nowhere behind. -/
instance : Preorder Counters where
  le c d := c.team ≤ d.team ∧ c.learner ≤ d.learner ∧ c.program ≤ d.program
  le_refl _ := ⟨le_rfl, le_rfl, le_rfl⟩
  le_trans _ _ _ h h' := ⟨h.1.trans h'.1, h.2.1.trans h'.2.1, h.2.2.trans h'.2.2⟩

theorem le_def {c d : Counters} :
    c ≤ d ↔ c.team ≤ d.team ∧ c.learner ≤ d.learner ∧ c.program ≤ d.program := Iff.rfl

theorem zero_le (c : Counters) : {} ≤ c := ⟨Nat.zero_le _, Nat.zero_le _, Nat.zero_le _⟩

end Counters

/-- All identities that are in use are below the counters. -/
structure Outline.Below (o : Outline) (c : Counters) : Prop where
  team : ∀ {t}, o.teams t = true → t.val < c.team
  learner : ∀ {l policy}, o.policy? l = some policy → l.val < c.learner

theorem Outline.Below.mono {o : Outline} {c d : Counters} (h : o.Below c) (le : c ≤ d) :
    o.Below d :=
  ⟨fun ht => (h.team ht).trans_le le.1, fun hl => (h.learner hl).trans_le le.2.1⟩

namespace Stock

/-- The records are exact, and the identities in use are not handed out again. -/
structure Sound (s : Stock) : Prop where
  exact : s.population.outline.Exact
  below : s.population.outline.Below s.counters

theorem sound_empty : Sound ⟨.empty, {}⟩ := by
  have teams (t : TeamId) : Population.empty.team? t = none := by
    simp [Population.empty, Population.team?]
  have learners (l : LearnerId) : Population.empty.learner? l = none := by
    simp [Population.empty, Population.learner?]
  refine ⟨⟨?_, ?_, ?_, ?_, ?_⟩, ⟨?_, ?_⟩⟩
  all_goals simp [Population.members, Population.references, Population.teamsOf,
    Population.policy?, Outline.target?, Population.containsTeam_eq, teams, learners]

/-- The next identity of a team is unused. -/
theorem Sound.absent {s : Stock} (h : s.Sound) :
    s.population.containsTeam ⟨s.counters.team⟩ = false := by
  by_contra there
  exact lt_irrefl _ (h.below.team (Bool.not_eq_false _ ▸ there))

/-- What is left of a stock is sound if the records are exact. -/
theorem Sound.of_partOf {stock : Stock} (sound : stock.Sound) {p : Population}
    (exact : p.outline.Exact) (part : p.outline.PartOf stock.population.outline) :
    Sound { stock with population := p } :=
  ⟨exact, fun ht => sound.below.team (part.teams ht),
    fun hl => sound.below.learner (part.policy hl)⟩

/-- One step of variation. A new learner has an action that is allowed or that
some learner has already. -/
inductive Step (base : Counters) (allowed : Action → Prop) : Stock → Stock → Prop
  | enlist {p q : Population} {c d : Counters} {l : LearnerId} {action : Action}
      {generation : Nat} (code : List Instruction)
      (known : allowed action ∨ ∃ k program, p.policy? k = some (program, action))
      (run : p.createLearner (Program.create c code).2 (Program.create c code).1 action generation =
        .ok (l, q, d)) : Step base allowed ⟨p, c⟩ ⟨q, d⟩
  | join {p q : Population} {c : Counters} {t : TeamId} {l : LearnerId} (new : base.team ≤ t.val)
      (run : p.addLearner t l = .ok q) : Step base allowed ⟨p, c⟩ ⟨q, c⟩
  | leave {p q : Population} {c : Counters} {t : TeamId} {l : LearnerId} (new : base.team ≤ t.val)
      (run : p.dropLearner t l = .ok q) : Step base allowed ⟨p, c⟩ ⟨q, c⟩
  | teach {p : Population} {c : Counters} {l : LearnerId} {learner : Learner}
      (new : base.learner ≤ l.val) (enlisted : p.learner? l = some learner)
      (code : List Instruction) : Step base allowed ⟨p, c⟩
        ⟨p.setLearner l { learner with program := (Program.create c code).1 },
          (Program.create c code).2⟩
  | aim {p q : Population} {c : Counters} {l : LearnerId} {action : Action}
      (new : base.learner ≤ l.val) (ok : allowed action) (run : p.setAction l action = .ok q) :
      Step base allowed ⟨p, c⟩ ⟨q, c⟩

/-- A number of steps of variation. -/
abbrev Path (base : Counters) (allowed : Action → Prop) : Stock → Stock → Prop :=
  Relation.ReflTransGen (Step base allowed)

namespace Step

variable {base : Counters} {allowed : Action → Prop} {s s' : Stock}

theorem counters_le (h : Step base allowed s s') : s.counters ≤ s'.counters := by
  cases h with
  | enlist code known run =>
    obtain ⟨-, rfl, -⟩ := Population.createLearner_outline run
    simp [Counters.le_def, Program.create, Counters.newProgram]
  | teach => simp [Counters.le_def, Program.create, Counters.newProgram]
  | join | leave | aim => exact le_refl _

theorem teams_eq (h : Step base allowed s s') :
    s'.population.containsTeam = s.population.containsTeam := by
  cases h with
  | enlist code known run =>
    exact congrArg Outline.teams (Population.createLearner_outline run).2.2.2
  | join new run => exact congrArg Outline.teams (Population.addLearner_outline run).2.2
  | leave new run => exact congrArg Outline.teams (Population.dropLearner_outline run).2
  | teach new enlisted code =>
    exact congrArg Outline.teams (Population.setProgram_outline enlisted _)
  | aim new ok run =>
    obtain ⟨program, old, -, -, eq⟩ := Population.setAction_outline run
    exact congrArg Outline.teams eq

/-- Lists of old teams stay as they are. -/
theorem members_eq (h : Step base allowed s s') {t : TeamId} (old : t.val < base.team) :
    s'.population.members t = s.population.members t := by
  have other {u : TeamId} (new : base.team ≤ u.val) : t ≠ u := by
    rintro rfl
    omega
  cases h with
  | enlist code known run =>
    exact congrFun (congrArg Outline.members (Population.createLearner_outline run).2.2.2) t
  | join new run =>
    have eq := congrArg Outline.members (Population.addLearner_outline run).2.2
    exact (congrFun eq t).trans (Function.update_of_ne (other new) ..)
  | leave new run =>
    have eq := congrArg Outline.members (Population.dropLearner_outline run).2
    exact (congrFun eq t).trans (Function.update_of_ne (other new) ..)
  | teach new enlisted code =>
    exact congrFun (congrArg Outline.members (Population.setProgram_outline enlisted _)) t
  | aim new ok run =>
    obtain ⟨program, old, -, -, eq⟩ := Population.setAction_outline run
    exact congrFun (congrArg Outline.members eq) t

/-- A learner gets a policy only if it is made in this step, or if it is there
and new; its action is then allowed, or one that some learner has already. -/
theorem policy?_eq (h : Step base allowed s s') (l : LearnerId) :
    s'.population.policy? l = s.population.policy? l ∨
      ∃ program action, s'.population.policy? l = some (program, action) ∧
        (allowed action ∨ ∃ k old, s.population.policy? k = some (old, action)) ∧
        (l.val = s.counters.learner ∧ l.val < s'.counters.learner ∨
          base.learner ≤ l.val ∧ ∃ policy, s.population.policy? l = some policy) := by
  cases h with
  | @enlist p q c d k action generation code known run =>
    obtain ⟨rfl, rfl, -, eq⟩ := Population.createLearner_outline run
    have policy := congrFun (congrArg Outline.policy? eq) l
    rw [Outline.policy?_enlist] at policy
    split at policy
    case isTrue same =>
      exact .inr ⟨_, _, policy, known, .inl ⟨by simp [same, Program.create, Counters.newProgram],
        by simp [same, Program.create, Counters.newProgram]⟩⟩
    case isFalse => exact .inl policy
  | join new run =>
    exact .inl (congrFun (congrArg Outline.policy? (Population.addLearner_outline run).2.2) l)
  | leave new run =>
    exact .inl (congrFun (congrArg Outline.policy? (Population.dropLearner_outline run).2) l)
  | @teach p c k learner new enlisted code =>
    have policy := congrFun (congrArg Outline.policy?
      (Population.setProgram_outline enlisted (Program.create c code).1)) l
    rw [Outline.policy?_teach] at policy
    have before := Population.policy?_of_learner? enlisted
    split at policy
    case isTrue same =>
      exact .inr ⟨_, _, policy, .inr ⟨k, _, before⟩, .inr ⟨same ▸ new, same ▸ ⟨_, before⟩⟩⟩
    case isFalse => exact .inl policy
  | @aim p q c k action new ok run =>
    obtain ⟨program, old, before, -, eq⟩ := Population.setAction_outline run
    have policy := congrFun (congrArg Outline.policy? eq) l
    rw [Outline.policy?_aim] at policy
    split at policy
    case isTrue same =>
      exact .inr ⟨_, _, policy, .inl ok, .inr ⟨same ▸ new, same ▸ ⟨_, before⟩⟩⟩
    case isFalse => exact .inl policy

theorem below (h : Step base allowed s s') (below : s.population.outline.Below s.counters) :
    s'.population.outline.Below s'.counters where
  team ht := ((below.team ((congrFun h.teams_eq _).symm.trans ht))).trans_le h.counters_le.1
  learner {l policy} hl := by
    obtain eq | ⟨-, -, -, -, ⟨-, lt⟩ | ⟨-, policy, before⟩⟩ := h.policy?_eq l
    · exact (below.learner (eq.symm.trans hl)).trans_le h.counters_le.2.1
    · exact lt
    · exact (below.learner before).trans_le h.counters_le.2.1

theorem exact (h : Step base allowed s s') (below : s.population.outline.Below s.counters)
    (exact : s.population.outline.Exact) : s'.population.outline.Exact := by
  cases h with
  | @enlist p q c d l action generation code known run =>
    refine Population.exact_createLearner exact ?_ run
    cases new : p.policy? ⟨(Program.create c code).2.learner⟩ with
    | none => rfl
    | some policy =>
      have := below.learner new
      simp [Program.create, Counters.newProgram] at this
  | join new run => exact Population.exact_addLearner exact run
  | leave new run => exact Population.exact_dropLearner exact run
  | teach new enlisted code => exact Population.exact_setProgram exact enlisted _
  | aim new ok run => exact Population.exact_setAction exact run

/-- What is old stays a part. -/
theorem partOf {o : Outline} (h : Step base allowed s s') (old : o.Below base)
    (le : base ≤ s.counters) (part : o.PartOf s.population.outline) :
    o.PartOf s'.population.outline where
  teams ht := (congrFun h.teams_eq _).trans (part.teams ht)
  members ht := (h.members_eq (old.team ht)).trans (part.members ht)
  policy {l x} hl := by
    have lt := old.learner hl
    obtain eq | ⟨-, -, -, -, ⟨eq, -⟩ | ⟨new, -⟩⟩ := h.policy?_eq l
    · exact eq.trans (part.policy hl)
    · have := le.2.1
      omega
    · omega

/-- Every learner was there before or has the next identity or a later one. -/
theorem learner_new (h : Step base allowed s s') {l : LearnerId} {policy : Program × Action}
    (hl : s'.population.policy? l = some policy) :
    (∃ before, s.population.policy? l = some before) ∨ s.counters.learner ≤ l.val := by
  obtain eq | ⟨-, -, -, -, ⟨eq, -⟩ | ⟨-, before⟩⟩ := h.policy?_eq l
  · exact .inl ⟨policy, eq.symm.trans hl⟩
  · exact .inr eq.ge
  · exact .inl before

theorem mono {base' : Counters} {allowed' : Action → Prop} (h : Step base allowed s s')
    (le : base' ≤ base) (imp : ∀ action, allowed action → allowed' action) :
    Step base' allowed' s s' := by
  cases h with
  | enlist code known run => exact .enlist code (known.imp_left (imp _)) run
  | join new run => exact .join (le.1.trans new) run
  | leave new run => exact .leave (le.1.trans new) run
  | teach new enlisted code => exact .teach (le.2.1.trans new) enlisted code
  | aim new ok run => exact .aim (le.2.1.trans new) (imp _ ok) run

theorem allowed_of (h : Step base allowed s s')
    (before : ∀ {l program action}, s.population.policy? l = some (program, action) →
      allowed action) {l : LearnerId} {program : Program} {action : Action}
    (hl : s'.population.policy? l = some (program, action)) : allowed action := by
  obtain eq | ⟨program', action', eq, ok | ⟨k, old, hk⟩, -⟩ := h.policy?_eq l
  · exact before (eq.symm.trans hl)
  · obtain ⟨-, rfl⟩ := Prod.mk.inj (Option.some.inj (eq.symm.trans hl))
    exact ok
  · obtain ⟨-, rfl⟩ := Prod.mk.inj (Option.some.inj (eq.symm.trans hl))
    exact before hk

end Step

theorem Path.counters_le {base : Counters} {allowed : Action → Prop} {s s' : Stock}
    (h : Path base allowed s s') : s.counters ≤ s'.counters := by
  induction h with
  | refl => exact le_refl _
  | tail _ step ih => exact ih.trans step.counters_le

theorem Path.teams_eq {base : Counters} {allowed : Action → Prop} {s s' : Stock}
    (h : Path base allowed s s') : s'.population.containsTeam = s.population.containsTeam := by
  induction h with
  | refl => rfl
  | tail _ step ih => exact step.teams_eq.trans ih

/-- Lists of old teams stay as they are. -/
theorem Path.members_eq {base : Counters} {allowed : Action → Prop} {s s' : Stock}
    (h : Path base allowed s s') {t : TeamId} (old : t.val < base.team) :
    s'.population.members t = s.population.members t := by
  induction h with
  | refl => rfl
  | tail _ step ih => exact (step.members_eq old).trans ih

theorem Path.sound {base : Counters} {allowed : Action → Prop} {s s' : Stock}
    (h : Path base allowed s s') (sound : s.Sound) : s'.Sound := by
  induction h with
  | refl => exact sound
  | tail _ step ih => exact ⟨step.exact ih.below ih.exact, step.below ih.below⟩

theorem Path.allowed_of {base : Counters} {allowed : Action → Prop} {s s' : Stock}
    (h : Path base allowed s s')
    (before : ∀ {l program action}, s.population.policy? l = some (program, action) →
      allowed action) {l : LearnerId} {program : Program} {action : Action}
    (hl : s'.population.policy? l = some (program, action)) : allowed action := by
  induction h generalizing l program action with
  | refl => exact before hl
  | tail _ step ih => exact step.allowed_of ih hl

theorem Sound.found {s : Stock} (h : s.Sound) (generation : Nat) :
    Sound ⟨(s.population.createTeam s.counters generation).2.1,
      (s.population.createTeam s.counters generation).2.2⟩ := by
  have new := h.absent
  have eq := Population.createTeam_new new generation
  constructor
  · exact Population.exact_createTeam h.exact new generation
  · rw [eq]
    constructor
    · intro t ht
      simp only [Function.update_apply] at ht
      by_cases same : t = ⟨s.counters.team⟩
      · exact same ▸ Nat.lt_succ_self _
      · rw [if_neg same] at ht
        exact Nat.lt_succ_of_lt (h.below.team ht)
    · intro l policy hl
      exact h.below.learner hl

/-- After a team is founded, growth makes no other team. -/
theorem Path.team_of_found {base : Counters} {allowed : Action → Prop} {s s' : Stock}
    (sound : s.Sound) {generation : Nat}
    (h : Path base allowed ⟨(s.population.createTeam s.counters generation).2.1,
      (s.population.createTeam s.counters generation).2.2⟩ s') {t : TeamId}
    (ht : s'.population.containsTeam t = true) :
    t = ⟨s.counters.team⟩ ∨ s.population.containsTeam t = true := by
  have founded : (s.population.createTeam s.counters generation).2.1.containsTeam =
      Function.update s.population.containsTeam ⟨s.counters.team⟩ true :=
    congrArg Outline.teams (Population.createTeam_new sound.absent generation)
  rw [h.teams_eq, founded, Function.update_apply] at ht
  by_cases same : t = ⟨s.counters.team⟩
  · exact .inl same
  · rw [if_neg same] at ht
    exact .inr ht

/-- What came out of a stock by growth: the records are exact, the old
population is a part of the new one, new identities were unused before, and
every action is allowed. -/
structure Extends (allowed : Action → Prop) (s₀ s : Stock) : Prop where
  old : s₀.population.outline.Below s₀.counters
  sound : s.Sound
  counters_le : s₀.counters ≤ s.counters
  part : s₀.population.outline.PartOf s.population.outline
  team_new : ∀ {t}, s.population.containsTeam t = true →
    s₀.population.containsTeam t = true ∨ s₀.counters.team ≤ t.val
  learner_new : ∀ {l policy}, s.population.policy? l = some policy →
    (∃ before, s₀.population.policy? l = some before) ∨ s₀.counters.learner ≤ l.val
  allowed : ∀ {l program action}, s.population.policy? l = some (program, action) →
    allowed action

namespace Extends

variable {allowed : Action → Prop} {s₀ s s' : Stock}

theorem refl (sound : s.Sound)
    (ok : ∀ {l program action}, s.population.policy? l = some (program, action) →
      allowed action) : Extends allowed s s where
  old := sound.below
  sound := sound
  counters_le := le_refl _
  part := .refl _
  team_new := .inl
  learner_new hl := .inl ⟨_, hl⟩
  allowed := ok

theorem trans (h : Extends allowed s₀ s) (h' : Extends allowed s s') : Extends allowed s₀ s' where
  old := h.old
  sound := h'.sound
  counters_le := h.counters_le.trans h'.counters_le
  part := h.part.trans h'.part
  team_new ht := (h'.team_new ht).elim h.team_new fun new => .inr (h.counters_le.1.trans new)
  learner_new hl := by
    obtain ⟨before, hb⟩ | new := h'.learner_new hl
    · exact h.learner_new hb
    · exact .inr (h.counters_le.2.1.trans new)
  allowed := h'.allowed

theorem step (h : Extends allowed s₀ s) (step : Step s₀.counters allowed s s') :
    Extends allowed s₀ s' where
  old := h.old
  sound := Path.sound (.single step) h.sound
  counters_le := h.counters_le.trans step.counters_le
  part := step.partOf h.old h.counters_le h.part
  team_new ht := h.team_new ((congrFun step.teams_eq _).symm.trans ht)
  learner_new hl := by
    obtain ⟨before, hb⟩ | new := step.learner_new hl
    · exact h.learner_new hb
    · exact .inr (h.counters_le.2.1.trans new)
  allowed hl := step.allowed_of h.allowed hl

theorem mono {allowed' : Action → Prop} (h : Extends allowed s₀ s)
    (imp : ∀ action, allowed action → allowed' action) : Extends allowed' s₀ s where
  old := h.old
  sound := h.sound
  counters_le := h.counters_le
  part := h.part
  team_new := h.team_new
  learner_new := h.learner_new
  allowed hl := imp _ (h.allowed hl)

/-- Steps that leave alone what is in the stock now leave alone what was in it
at the start. -/
theorem path {base : Counters} (h : Extends allowed s₀ s) (le : s₀.counters ≤ base)
    (path : Path base allowed s s') : Extends allowed s₀ s' := by
  induction path with
  | refl => exact h
  | tail _ step ih => exact ih.step (step.mono le fun _ => id)

/-- A new team is the only change. -/
theorem found (h : Extends allowed s₀ s) (generation : Nat) :
    Extends allowed s₀ ⟨(s.population.createTeam s.counters generation).2.1,
      (s.population.createTeam s.counters generation).2.2⟩ := by
  have eq := Population.createTeam_new h.sound.absent generation
  have teams : (s.population.createTeam s.counters generation).2.1.containsTeam =
      Function.update s.population.containsTeam ⟨s.counters.team⟩ true :=
    congrArg Outline.teams eq
  have members : (s.population.createTeam s.counters generation).2.1.members =
      s.population.members := congrArg Outline.members eq
  have policy : (s.population.createTeam s.counters generation).2.1.policy? =
      s.population.policy? := congrArg Outline.policy? eq
  have le : s.counters ≤ (s.population.createTeam s.counters generation).2.2 := by
    simp [Population.createTeam, Counters.newTeam, Counters.le_def]
  have part : s.population.outline.PartOf
      (s.population.createTeam s.counters generation).2.1.outline := by
    constructor
    · intro t ht
      have there : s.population.containsTeam t = true := ht
      refine (congrFun teams t).trans ?_
      rw [Function.update_apply, there, ite_self]
    · intro t _
      exact congrFun members t
    · intro l x hl
      exact (congrFun policy l).trans hl
  exact {
    old := h.old
    sound := h.sound.found generation
    counters_le := h.counters_le.trans le
    part := h.part.trans part
    team_new := by
      intro t ht
      rw [teams, Function.update_apply] at ht
      split at ht
      case isTrue same => exact .inr (same ▸ h.counters_le.1)
      case isFalse => exact h.team_new ht
    learner_new := by
      intro l x hl
      exact h.learner_new ((congrFun policy l).symm.trans hl)
    allowed := by
      intro l program action hl
      exact h.allowed ((congrFun policy l).symm.trans hl) }

end Extends

end Stock

end TangledGraph
