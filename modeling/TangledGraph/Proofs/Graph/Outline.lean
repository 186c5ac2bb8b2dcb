import Mathlib.Logic.Function.Basic
import TangledGraph.Proofs.Graph.Edits

/-!
# Outlines of populations

What edits of the graph act on, read through total look-ups: which teams there
are, the lists at both ends of each kind of edge, and the policy of each
learner, which is its program with its action. What is not there has empty
lists. Outcomes, fitness and generations are left out.

Every edit of a population is one step on its outline, or a fault.
-/
namespace TangledGraph

structure Outline where
  teams : TeamId → Bool
  members : TeamId → List LearnerId
  references : TeamId → List LearnerId
  teamsOf : LearnerId → List TeamId
  policy? : LearnerId → Option (Program × Action)

namespace Outline

/-- The team that the action of a learner leads to. -/
def target? (o : Outline) (l : LearnerId) : Option TeamId :=
  (o.policy? l).bind fun policy => policy.2.target?

/-- A new team without learners. -/
def found (o : Outline) (t : TeamId) : Outline :=
  { o with
    teams := Function.update o.teams t true
    members := Function.update o.members t []
    references := Function.update o.references t [] }

/-- A team is gone. -/
def disband (o : Outline) (t : TeamId) : Outline :=
  { o with
    teams := Function.update o.teams t false
    members := Function.update o.members t []
    references := Function.update o.references t [] }

/-- The record, at the target of an action, of the learner that has it. -/
def refer (o : Outline) (action : Action) (l : LearnerId) : Outline :=
  { o with references := fun t =>
      if action.target? = some t then o.references t ++ [l] else o.references t }

/-- The record of `refer` is gone. -/
def unrefer (o : Outline) (action : Action) (l : LearnerId) : Outline :=
  { o with references := fun t =>
      if action.target? = some t then (o.references t).erase l else o.references t }

theorem refer_of_none {o : Outline} {action : Action} (h : action.target? = none)
    (l : LearnerId) : o.refer action l = o := by
  simp [refer, h]

theorem refer_of_some {o : Outline} {action : Action} {t : TeamId} (h : action.target? = some t)
    (l : LearnerId) : o.refer action l =
      { o with references := Function.update o.references t (o.references t ++ [l]) } := by
  simp only [refer, h, Option.some.injEq, mk.injEq, and_self, and_true, true_and]
  funext u
  rcases eq_or_ne t u with rfl | apart
  · simp
  · simp [apart, apart.symm]

theorem unrefer_of_none {o : Outline} {action : Action} (h : action.target? = none)
    (l : LearnerId) : o.unrefer action l = o := by
  simp [unrefer, h]

theorem unrefer_of_some {o : Outline} {action : Action} {t : TeamId}
    (h : action.target? = some t) (l : LearnerId) : o.unrefer action l =
      { o with references := Function.update o.references t ((o.references t).erase l) } := by
  simp only [unrefer, h, Option.some.injEq, mk.injEq, and_self, and_true, true_and]
  funext u
  rcases eq_or_ne t u with rfl | apart
  · simp
  · simp [apart, apart.symm]

/-- A learner enters a team. -/
def join (o : Outline) (t : TeamId) (l : LearnerId) : Outline :=
  { o with
    members := Function.update o.members t (o.members t ++ [l])
    teamsOf := Function.update o.teamsOf l (o.teamsOf l ++ [t]) }

/-- A learner leaves a team. -/
def leave (o : Outline) (t : TeamId) (l : LearnerId) : Outline :=
  { o with
    members := Function.update o.members t ((o.members t).erase l)
    teamsOf := Function.update o.teamsOf l ((o.teamsOf l).filter (· != t)) }

/-- A new learner that is on no team. -/
def enlist (o : Outline) (l : LearnerId) (program : Program) (action : Action) : Outline :=
  { o.refer action l with
    teamsOf := Function.update o.teamsOf l []
    policy? := Function.update o.policy? l (some (program, action)) }

/-- A learner with a given action is gone. -/
def discharge (o : Outline) (l : LearnerId) (action : Action) : Outline :=
  { o.unrefer action l with
    teamsOf := Function.update o.teamsOf l []
    policy? := Function.update o.policy? l none }

/-- A learner has another program. -/
def teach (o : Outline) (l : LearnerId) (program : Program) (action : Action) : Outline :=
  { o with policy? := Function.update o.policy? l (some (program, action)) }

/-- A learner has another action in place of an old one. -/
def aim (o : Outline) (l : LearnerId) (program : Program) (old action : Action) : Outline :=
  { (o.unrefer old l).refer action l with
    policy? := Function.update o.policy? l (some (program, action)) }

theorem policy?_enlist (o : Outline) (l k : LearnerId) (program : Program) (action : Action) :
    (o.enlist l program action).policy? k =
      if k = l then some (program, action) else o.policy? k :=
  Function.update_apply ..

theorem policy?_discharge (o : Outline) (l k : LearnerId) (action : Action) :
    (o.discharge l action).policy? k = if k = l then none else o.policy? k :=
  Function.update_apply ..

theorem policy?_teach (o : Outline) (l k : LearnerId) (program : Program) (action : Action) :
    (o.teach l program action).policy? k =
      if k = l then some (program, action) else o.policy? k :=
  Function.update_apply ..

theorem policy?_aim (o : Outline) (l k : LearnerId) (program : Program) (old action : Action) :
    (o.aim l program old action).policy? k =
      if k = l then some (program, action) else o.policy? k :=
  Function.update_apply ..

end Outline

namespace Population

variable {p q : Population} {t : TeamId} {l : LearnerId}

/-- The learners of a team. -/
def members (p : Population) (t : TeamId) : List LearnerId :=
  ((p.team? t).map Team.learners).getD []

/-- The learners whose actions a team has on record. -/
def references (p : Population) (t : TeamId) : List LearnerId :=
  ((p.team? t).map Team.inLearners).getD []

/-- The teams that a learner has on record. -/
def teamsOf (p : Population) (l : LearnerId) : List TeamId :=
  ((p.learner? l).map Learner.inTeams).getD []

def policy? (p : Population) (l : LearnerId) : Option (Program × Action) :=
  (p.learner? l).map fun learner => (learner.program, learner.action)

def target? (p : Population) (l : LearnerId) : Option TeamId :=
  (p.learner? l).bind Learner.target?

def outline (p : Population) : Outline where
  teams := p.containsTeam
  members := p.members
  references := p.references
  teamsOf := p.teamsOf
  policy? := p.policy?

@[simp] theorem outline_teams (p : Population) : p.outline.teams = p.containsTeam := rfl
@[simp] theorem outline_members (p : Population) : p.outline.members = p.members := rfl
@[simp] theorem outline_references (p : Population) : p.outline.references = p.references := rfl
@[simp] theorem outline_teamsOf (p : Population) : p.outline.teamsOf = p.teamsOf := rfl
@[simp] theorem outline_policy? (p : Population) : p.outline.policy? = p.policy? := rfl

theorem containsTeam_eq (p : Population) (t : TeamId) :
    p.containsTeam t = (p.team? t).isSome := by
  simp [containsTeam, team?]

theorem containsLearner_eq (p : Population) (l : LearnerId) :
    p.containsLearner l = (p.policy? l).isSome := by
  simp [containsLearner, policy?, learner?]

theorem containsLearner_congr (same : q.policy? = p.policy?) :
    q.containsLearner = p.containsLearner := by
  funext l
  rw [containsLearner_eq, containsLearner_eq, same]

theorem containsTeam_of_team? {team : Team} (h : p.team? t = some team) : p.containsTeam t := by
  rw [containsTeam_eq, h, Option.isSome_some]

theorem containsTeam_iff : p.containsTeam t ↔ ∃ team, p.team? t = some team := by
  rw [containsTeam_eq, Option.isSome_iff_exists]

theorem containsLearner_iff : p.containsLearner l ↔ ∃ learner, p.learner? l = some learner := by
  simp only [containsLearner_eq, policy?, Option.isSome_map, Option.isSome_iff_exists]

theorem members_of_team? {team : Team} (h : p.team? t = some team) :
    p.members t = team.learners := by simp [members, h]

theorem references_of_team? {team : Team} (h : p.team? t = some team) :
    p.references t = team.inLearners := by simp [references, h]

theorem teamsOf_of_learner? {learner : Learner} (h : p.learner? l = some learner) :
    p.teamsOf l = learner.inTeams := by simp [teamsOf, h]

theorem policy?_of_learner? {learner : Learner} (h : p.learner? l = some learner) :
    p.policy? l = some (learner.program, learner.action) := by simp [policy?, h]

theorem target?_eq (p : Population) (l : LearnerId) : p.target? l = p.outline.target? l := by
  cases h : p.learner? l <;> simp [target?, Outline.target?, outline, policy?, h, Learner.target?]

theorem target?_of_learner? {learner : Learner} (h : p.learner? l = some learner) :
    p.target? l = learner.action.target? := by simp [target?, h, Learner.target?]

/-- A team with a member is there. -/
theorem containsTeam_of_mem_members (h : l ∈ p.members t) : p.containsTeam t := by
  rw [containsTeam_eq]
  cases ht : p.team? t <;> simp_all [members]

theorem containsTeam_of_mem_references (h : l ∈ p.references t) : p.containsTeam t := by
  rw [containsTeam_eq]
  cases ht : p.team? t <;> simp_all [references]

/-- A learner on a team is there. -/
theorem learner?_of_mem_teamsOf (h : t ∈ p.teamsOf l) : ∃ learner, p.learner? l = some learner := by
  cases hl : p.learner? l <;> simp_all [teamsOf]

theorem learner?_of_policy? {policy : Program × Action} (h : p.policy? l = some policy) :
    ∃ learner, p.learner? l = some learner ∧ (learner.program, learner.action) = policy := by
  simpa [policy?] using h

theorem outline_setTeam (p : Population) (t : TeamId) (team : Team) :
    (p.setTeam t team).outline = { p.outline with
      teams := Function.update p.containsTeam t true
      members := Function.update p.members t team.learners
      references := Function.update p.references t team.inLearners } := by
  simp only [outline, Outline.mk.injEq]
  refine ⟨?_, ?_, ?_, rfl, rfl⟩
  all_goals
    funext u
    simp only [containsTeam_eq, members, references, team?_setTeam, Function.update_apply]
    split <;> simp

/-- A team that is there is written again. -/
theorem outline_resetTeam {team : Team} (h : p.team? t = some team) (team' : Team) :
    (p.setTeam t team').outline = { p.outline with
      members := Function.update p.members t team'.learners
      references := Function.update p.references t team'.inLearners } := by
  have there : p.containsTeam t = true := containsTeam_of_team? h
  rw [outline_setTeam, ← there, Function.update_eq_self]
  rfl

theorem outline_setLearner (p : Population) (l : LearnerId) (learner : Learner) :
    (p.setLearner l learner).outline = { p.outline with
      teamsOf := Function.update p.teamsOf l learner.inTeams
      policy? := Function.update p.policy? l (some (learner.program, learner.action)) } := by
  simp only [outline, Outline.mk.injEq]
  refine ⟨rfl, rfl, rfl, ?_, ?_⟩
  all_goals
    funext k
    simp only [teamsOf, policy?, learner?_setLearner, Function.update_apply]
    split <;> simp

/-- A learner is written again with other teams. -/
theorem outline_relistLearner {learner learner' : Learner} (h : p.learner? l = some learner)
    (same : (learner'.program, learner'.action) = (learner.program, learner.action)) :
    (p.setLearner l learner').outline = { p.outline with
      teamsOf := Function.update p.teamsOf l learner'.inTeams } := by
  rw [outline_setLearner, same, ← policy?_of_learner? h, Function.update_eq_self]
  rfl

/-- Both ends of a membership are written again. -/
theorem outline_relist {team team' : Team} {learner learner' : Learner}
    (found : p.team? t = some team) (enlisted : p.learner? l = some learner)
    (references : team'.inLearners = team.inLearners)
    (policy : (learner'.program, learner'.action) = (learner.program, learner.action)) :
    ((p.setTeam t team').setLearner l learner').outline = { p.outline with
      members := Function.update p.members t team'.learners
      teamsOf := Function.update p.teamsOf l learner'.inTeams } := by
  have again : (p.setTeam t team').learner? l = some learner := enlisted
  rw [outline_relistLearner again policy, outline_resetTeam found, references,
    ← references_of_team? found, Function.update_eq_self]
  rfl

theorem outline_eraseTeam (p : Population) (t : TeamId) :
    Population.outline { p with teams := p.teams.erase t } = p.outline.disband t := by
  simp only [outline, Outline.disband, Outline.mk.injEq]
  refine ⟨?_, ?_, ?_, rfl, rfl⟩
  all_goals
    funext u
    simp only [containsTeam_eq, members, references, team?_eraseTeam, Function.update_apply]
    split <;> simp

theorem outline_eraseLearner (p : Population) (l : LearnerId) :
    Population.outline { p with learners := p.learners.erase l } =
      { p.outline with
        teamsOf := Function.update p.teamsOf l []
        policy? := Function.update p.policy? l none } := by
  simp only [outline, Outline.mk.injEq]
  refine ⟨rfl, rfl, rfl, ?_, ?_⟩
  all_goals
    funext k
    simp only [teamsOf, policy?, learner?_eraseLearner, Function.update_apply]
    split <;> simp

theorem createTeam_outline (p : Population) (c : Counters) (generation : Nat) :
    (p.createTeam c generation).2.1.outline = p.outline.found ⟨c.team⟩ :=
  outline_setTeam p ⟨c.team⟩ { generation }

theorem addTarget_outline {action : Action} (h : p.addTarget action l = .ok q) :
    (∀ u, action.target? = some u → p.containsTeam u) ∧ q.outline = p.outline.refer action l := by
  cases target : action.target? with
  | none =>
    obtain rfl := Except.ok.inj ((addTarget_of_none target l).symm.trans h)
    simp [Outline.refer_of_none target]
  | some t =>
    obtain ⟨team, found, rfl⟩ := (addTarget_eq_ok target).1 h
    refine ⟨by simpa using containsTeam_of_team? found, ?_⟩
    rw [outline_resetTeam found, ← members_of_team? found, ← references_of_team? found,
      Function.update_eq_self, Outline.refer_of_some target]
    rfl

theorem dropTarget_outline {action : Action} (h : p.dropTarget action l = .ok q) :
    (∀ u, action.target? = some u → l ∈ p.references u) ∧
      q.outline = p.outline.unrefer action l := by
  cases target : action.target? with
  | none =>
    obtain rfl := Except.ok.inj ((dropTarget_of_none target l).symm.trans h)
    simp [Outline.unrefer_of_none target]
  | some t =>
    obtain ⟨team, found, held, rfl⟩ := (dropTarget_eq_ok target).1 h
    rw [← references_of_team? found] at held
    refine ⟨by simpa using held, ?_⟩
    rw [outline_resetTeam found, ← members_of_team? found, ← references_of_team? found,
      Function.update_eq_self, Outline.unrefer_of_some target]
    rfl

theorem createLearner_outline {c d : Counters} {program : Program} {action : Action}
    {generation : Nat} (h : p.createLearner c program action generation = .ok (l, q, d)) :
    l = ⟨c.learner⟩ ∧ d = { c with learner := c.learner + 1 } ∧
      (∀ u, action.target? = some u → p.containsTeam u) ∧
      q.outline = p.outline.enlist l program action := by
  obtain ⟨rfl, rfl, r, added, rfl⟩ := createLearner_eq_ok.1 h
  obtain ⟨there, eq⟩ := addTarget_outline added
  refine ⟨rfl, rfl, there, ?_⟩
  rw [outline_setLearner, ← outline_teamsOf, ← outline_policy?, eq]
  rfl

theorem addLearner_outline (h : p.addLearner t l = .ok q) :
    p.containsTeam t ∧ l ∉ p.members t ∧ q.outline = p.outline.join t l := by
  obtain ⟨team, learner, found, new, enlisted, rfl⟩ := addLearner_eq_ok.1 h
  refine ⟨containsTeam_of_team? found, members_of_team? found ▸ new, ?_⟩
  rw [outline_relist found enlisted, ← members_of_team? found, ← teamsOf_of_learner? enlisted]
  all_goals rfl

theorem dropLearner_outline (h : p.dropLearner t l = .ok q) :
    l ∈ p.members t ∧ q.outline = p.outline.leave t l := by
  obtain ⟨team, learner, found, held, enlisted, rfl⟩ := dropLearner_eq_ok.1 h
  refine ⟨members_of_team? found ▸ held, ?_⟩
  rw [outline_relist found enlisted, ← members_of_team? found, ← teamsOf_of_learner? enlisted]
  all_goals rfl

theorem setAction_outline {action : Action} (h : p.setAction l action = .ok q) :
    ∃ program old, p.policy? l = some (program, old) ∧
      (∀ u, action.target? = some u → p.containsTeam u ∧ u ∉ p.teamsOf l) ∧
      q.outline = p.outline.aim l program old action := by
  obtain ⟨learner, r, enlisted, apart, dropped, added⟩ := setAction_eq_ok.1 h
  have first := (dropTarget_outline dropped).2
  obtain ⟨there, second⟩ := addTarget_outline added
  rw [outline_setLearner, ← teamsOf_of_learner? enlisted, Function.update_eq_self] at first
  have teams : r.containsTeam = p.containsTeam := congrArg Outline.teams first
  have target : ∀ u, action.target? = some u → p.containsTeam u ∧ u ∉ p.teamsOf l := by
    intro u hu
    exact ⟨teams ▸ there u hu, teamsOf_of_learner? enlisted ▸ apart u hu⟩
  have aimed : q.outline = p.outline.aim l learner.program learner.action action := by
    rw [second, first]
    rfl
  exact ⟨learner.program, learner.action, policy?_of_learner? enlisted, target, aimed⟩

theorem deleteLearner_outline {learner : Learner} (h : p.deleteLearner l = .ok (learner, q)) :
    p.learner? l = some learner ∧ p.teamsOf l = [] ∧
      q.outline = p.outline.discharge l learner.action := by
  obtain ⟨enlisted, alone, dropped⟩ := deleteLearner_eq_ok.1 h
  refine ⟨enlisted, (teamsOf_of_learner? enlisted).trans alone, ?_⟩
  rw [(dropTarget_outline dropped).2, outline_eraseLearner]
  rfl

end Population

end TangledGraph
