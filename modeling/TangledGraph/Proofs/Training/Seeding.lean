import TangledGraph.Proofs.Machine.Bounds
import TangledGraph.Proofs.Training.Beginning
import TangledGraph.Proofs.Training.Reachable

/-!
# Who is on the first teams

The first teams take the identities from zero on, and no action leads to any of them.
A team is filled from a list of codes: each gets a learner of its own with a program
within bounds, and the learner enters this team only. So the members of a team hold
its codes in the order in which they were drawn.
-/
namespace TangledGraph

open Draw

variable {s : Settings} {o : Outline} {t u : TeamId} {l : LearnerId} {code : Code}

/-- A learner that holds a code, has a program within bounds and is on one team. -/
def Outline.Holds (s : Settings) (o : Outline) (t : TeamId) (l : LearnerId) (code : Code) : Prop :=
  ∃ program, o.policy? l = some (program, .atomic code) ∧
    Bounded s.program.Within s.program.initMaxProgramSize program.instructions ∧ o.teamsOf l = [t]

/-- The learners of each team hold its codes in order, there are no others, and no
action leads to a team. -/
structure Outline.Seeded (s : Settings) (crews : TeamId → List Code) (o : Outline) : Prop where
  manned : ∀ t, List.Forall₂ (o.Holds s t) (o.members t) (crews t)
  employed : ∀ {l policy}, o.policy? l = some policy → ∃ t, l ∈ o.members t
  unreferred : ∀ t, o.references t = []

/-- A new learner with a code is made for a team. -/
def Outline.recruit (o : Outline) (t : TeamId) (l : LearnerId) (program : Program) (code : Code) :
    Outline :=
  { o with
    members := Function.update o.members t (o.members t ++ [l])
    teamsOf := Function.update o.teamsOf l [t]
    policy? := Function.update o.policy? l (some (program, .atomic code)) }

/-- What a learner holds is on its record. -/
theorem Outline.Holds.learner {p : Population} (holds : p.outline.Holds s t l code) :
    ∃ learner, p.learner? l = some learner ∧ learner.action = .atomic code ∧ learner.inTeams = [t] ∧
      Bounded s.program.Within s.program.initMaxProgramSize learner.program.instructions := by
  obtain ⟨program, policy, bounded, single⟩ := holds
  obtain ⟨learner, enlisted, eq⟩ := Population.learner?_of_policy? policy
  obtain ⟨rfl, action⟩ := Prod.mk.inj eq
  rw [Population.outline_teamsOf, Population.teamsOf_of_learner? enlisted] at single
  exact ⟨learner, enlisted, action, single, bounded⟩

namespace Outline.Seeded

variable {crews : TeamId → List Code}

theorem empty (s : Settings) : Seeded s (fun _ => []) Population.empty.outline := by
  have absent (t : TeamId) : Population.empty.containsTeam t = false := by
    by_contra there
    exact Nat.not_lt_zero t.val (Stock.sound_empty.below.team (Bool.eq_true_of_not_eq_false there))
  refine ⟨fun t => ?_, fun {l policy} there => ?_, fun t => Population.references_eq_nil (absent t)⟩
  · rw [Population.outline_members, Population.members_eq_nil (absent t)]
    exact .nil
  · exact absurd (Stock.sound_empty.below.learner there) (Nat.not_lt_zero l.val)

theorem recruit (h : Seeded s crews o) (new : o.policy? l = none) {program : Program}
    (bounded : Bounded s.program.Within s.program.initMaxProgramSize program.instructions)
    (t : TeamId) (code : Code) :
    Seeded s (Function.update crews t (crews t ++ [code])) (o.recruit t l program code) := by
  -- Whoever holds a code is not new, and holds it afterwards.
  have keeps {u k c} (holds : o.Holds s u k c) : (o.recruit t l program code).Holds s u k c := by
    obtain ⟨program', policy, bounded', single⟩ := holds
    have other : k ≠ l := by
      rintro rfl
      rw [new] at policy
      cases policy
    exact ⟨program', (Function.update_of_ne other ..).trans policy, bounded',
      (Function.update_of_ne other ..).trans single⟩
  have joins : (o.recruit t l program code).Holds s t l code :=
    ⟨program, Function.update_self .., bounded, Function.update_self ..⟩
  refine ⟨fun u => ?_, fun {k policy} there => ?_, h.unreferred⟩
  · have before := (h.manned u).imp fun _ _ => keeps
    obtain rfl | other := eq_or_ne u t
    · simp only [Outline.recruit, Function.update_self]
      exact List.rel_append before (.cons joins .nil)
    · simp only [Outline.recruit, Function.update_of_ne other]
      exact before
  · obtain rfl | other := eq_or_ne k l
    · exact ⟨t, by simp [Outline.recruit]⟩
    · obtain ⟨u, member⟩ := h.employed ((Function.update_of_ne other ..).symm.trans there)
      obtain rfl | apart := eq_or_ne u t
      · exact ⟨u, by simp [Outline.recruit, member]⟩
      · exact ⟨u, by simpa [Outline.recruit, apart] using member⟩

end Outline.Seeded

namespace Trainer

variable {crews : TeamId → List Code}

/-- The teams have the identities below the counter, and a crew each. -/
structure Founded (s : Settings) (stock : Stock) : Prop where
  sound : stock.Sound
  teams : ∀ t, stock.population.containsTeam t = true ↔ t.val < stock.counters.team
  crewed : ∃ crews, stock.population.outline.Seeded s crews ∧
    ∀ t, stock.population.containsTeam t = true → Crew s (crews t)

namespace Founded

variable {stock : Stock}

theorem mem_places (h : Founded s stock) (t : TeamId) :
    t ∈ (List.range stock.counters.team).map TeamId.mk ↔
      stock.population.containsTeam t = true := by
  rw [h.teams, List.mem_map]
  simp only [List.mem_range]
  exact ⟨by rintro ⟨i, below, rfl⟩; exact below, fun below => ⟨t.val, below, rfl⟩⟩

theorem teamCount_eq (h : Founded s stock) : stock.population.teamCount = stock.counters.team := by
  have nodup : ((List.range stock.counters.team).map TeamId.mk).Nodup :=
    List.nodup_range.map fun _ _ same => congrArg TeamId.val same
  rw [Population.teamCount_eq_length nodup h.mem_places, List.length_map, List.length_range]

end Founded

end Trainer

end TangledGraph
