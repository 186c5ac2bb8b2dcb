import Mathlib.Data.List.Count
import TangledGraph.Proofs.Graph.Tuning

/-!
# Variation of a learner does not go wrong

A changed copy leads to a team that is there, not to the team that it is made
for, and it is atomic if it has to be. So with valid settings every edit that
its variation makes can be made, and no other learner is touched. Only the loop
that waits for a change may go on for ever.
-/
namespace TangledGraph

open Draw

namespace Population

variable {p q : Population} {t : TeamId} {l : LearnerId}

theorem isAtomicAt_congr (h : q.policy? l = p.policy? l) : q.isAtomicAt l = p.isAtomicAt l := by
  rw [isAtomicAt, isAtomicAt, h]

theorem target?_congr (h : q.policy? l = p.policy? l) : q.target? l = p.target? l := by
  rw [target?_eq, target?_eq, Outline.target?, Outline.target?, outline_policy?, outline_policy?, h]

/-- A copy is a new learner with the action of its original. -/
theorem cloneLearner_outline {c d : Counters} {source : LearnerId} {learner : Learner}
    {generation : Nat} (enlisted : p.learner? source = some learner)
    (run : p.cloneLearner c source generation = .ok (l, q, d)) :
    l = ⟨c.learner⟩ ∧ ∃ program, q.outline = p.outline.enlist l program learner.action := by
  obtain ⟨learner', enlisted', run⟩ := cloneLearner_eq_ok.1 run
  obtain rfl : learner = learner' := Option.some.inj (enlisted.symm.trans enlisted')
  obtain ⟨rfl, -, -, eq⟩ := createLearner_outline run
  exact ⟨rfl, _, eq⟩

end Population

namespace Stock

variable {s : Settings}

section Learners

/-- A copy that is on no team yet and may enter one: it does not lead there, and
it is atomic if it has to be. -/
structure Ready (l : LearnerId) (parent : TeamId) (forceAtomic : Bool) (p : Population) :
    Prop where
  exact : p.outline.Exact
  enlisted : ∃ learner, p.learner? l = some learner
  alone : p.teamsOf l = []
  foreign : p.target? l ≠ some parent
  atomic : forceAtomic = true → p.isAtomicAt l = true

/-- Of two populations the second has another policy for one learner at most. -/
structure Retuned (l : LearnerId) (p q : Population) : Prop where
  teams : q.containsTeam = p.containsTeam
  members : q.members = p.members
  teamsOf : q.teamsOf = p.teamsOf
  policy : ∀ k, k ≠ l → q.policy? k = p.policy? k

theorem Retuned.refl (l : LearnerId) (p : Population) : Retuned l p p :=
  ⟨rfl, rfl, rfl, fun _ _ => rfl⟩

theorem Retuned.trans {l : LearnerId} {p q r : Population} (h : Retuned l p q)
    (h' : Retuned l q r) : Retuned l p r where
  teams := h'.teams.trans h.teams
  members := h'.members.trans h.members
  teamsOf := h'.teamsOf.trans h.teamsOf
  policy k apart := (h'.policy k apart).trans (h.policy k apart)

variable {l : LearnerId} {parent : TeamId} {pool : List TeamId} {forceAtomic : Bool}

section Adjusted

variable {stock next : Stock} {learner learner' : Learner}
  (h : Adjusted s l parent pool forceAtomic stock learner next learner')
  (enlisted : stock.population.learner? l = some learner)
include h enlisted

theorem Adjusted.retuned : Retuned l stock.population next.population where
  teams := funext h.containsTeam
  members := funext fun t => by
    rw [Population.members, Population.members, h.teams, Option.map_map]
    rfl
  teamsOf := funext fun k => by
    by_cases own : k = l
    · rw [own, Population.teamsOf_of_learner? h.enlisted,
        Population.teamsOf_of_learner? enlisted, h.rest.2]
    · rw [Population.teamsOf, Population.teamsOf, h.learners, if_neg own]
  policy k apart := by
    rw [Population.policy?, Population.policy?, h.learners, if_neg apart]

/-- Another action leads elsewhere than to the parent, and is atomic if it has to be. -/
theorem Adjusted.ready (ready : Ready l parent forceAtomic stock.population) :
    Ready l parent forceAtomic next.population where
  exact := h.exact
  enlisted := ⟨learner', h.enlisted⟩
  alone := by rw [(h.retuned enlisted).teamsOf, ready.alone]
  foreign := by
    have before := ready.foreign
    rw [Population.target?_of_learner? enlisted] at before
    rw [Population.target?_of_learner? h.enlisted]
    obtain same | offers := h.action
    · rwa [same]
    · exact offers.foreign
  atomic force := by
    have before := ready.atomic force
    rw [Population.isAtomicAt_of_learner? enlisted] at before
    rw [Population.isAtomicAt_of_learner? h.enlisted]
    obtain same | offers := h.action
    · rw [Learner.isAtomic, same]
      exact before
    · exact offers.forced force

end Adjusted

variable (valid : s.Valid)
include valid

/-- However long a copy is varied, only its own policy changes, and it stays
ready to enter the team. -/
theorem varyLearner_faultless {stock : Stock}
    (ready : Ready l parent forceAtomic stock.population) :
    Faultless (varyLearner s stock l parent pool forceAtomic) fun varied =>
      Ready l parent forceAtomic varied.population ∧
        Retuned l stock.population varied.population := by
  obtain ⟨learner, enlisted⟩ := ready.enlisted
  have alone : learner.inTeams = [] :=
    (Population.teamsOf_of_learner? enlisted).symm.trans ready.alone
  refine (varyLearner_adjusts valid ready.exact enlisted alone).mono fun varied h => ?_
  obtain ⟨learner', adjusted, -⟩ := h
  exact ⟨adjusted.ready enlisted ready, adjusted.retuned enlisted⟩

end Learners

end Stock

end TangledGraph
