import TangledGraph.Proofs.Graph.WellFormed

/-!
# Edits that can be made

When an edit is no fault. With exact records, what an edit has to find is there
as soon as its own condition holds: a learner that enters a team is not on it,
one that leaves is, a new action leads to a team that is there, and a learner
or a team that goes is on no team or a root.
-/
namespace TangledGraph.Population

variable {p : Population} {t : TeamId} {l : LearnerId}

theorem addTarget_ok {action : Action}
    (there : ∀ u, action.target? = some u → p.containsTeam u = true) (l : LearnerId) :
    ∃ q, p.addTarget action l = .ok q := by
  cases target : action.target? with
  | none => exact ⟨p, addTarget_of_none target l⟩
  | some u =>
    obtain ⟨team, found⟩ := containsTeam_iff.1 (there u target)
    exact ⟨_, (addTarget_eq_ok target).2 ⟨team, found, rfl⟩⟩

theorem dropTarget_ok {action : Action}
    (held : ∀ u, action.target? = some u → l ∈ p.references u) :
    ∃ q, p.dropTarget action l = .ok q := by
  cases target : action.target? with
  | none => exact ⟨p, dropTarget_of_none target l⟩
  | some u =>
    have reference := held u target
    obtain ⟨team, found⟩ := containsTeam_iff.1 (containsTeam_of_mem_references reference)
    rw [references_of_team? found] at reference
    exact ⟨_, (dropTarget_eq_ok target).2 ⟨team, found, reference, rfl⟩⟩

theorem createLearner_ok (c : Counters) (program : Program) {action : Action}
    (there : ∀ u, action.target? = some u → p.containsTeam u = true) (generation : Nat) :
    ∃ q, p.createLearner c program action generation =
      .ok (⟨c.learner⟩, q, { c with learner := c.learner + 1 }) := by
  obtain ⟨q, added⟩ := addTarget_ok there ⟨c.learner⟩
  exact ⟨_, createLearner_eq_ok.2 ⟨rfl, rfl, q, added, rfl⟩⟩

/-- Every learner can be copied: its action leads to a team that is there. -/
theorem cloneLearner_ok (exact : p.outline.Exact) {learner : Learner}
    (enlisted : p.learner? l = some learner) (c : Counters) (generation : Nat) :
    ∃ q, p.cloneLearner c l generation = .ok (⟨c.learner⟩, q,
      { c with learner := c.learner + 1, program := c.program + 1 }) := by
  have there : ∀ u, learner.action.target? = some u → p.containsTeam u = true := by
    intro u leads
    exact resolve_target exact ((target?_of_learner? enlisted).trans leads)
  obtain ⟨q, created⟩ := createLearner_ok { c with program := c.program + 1 }
    ⟨⟨c.program⟩, learner.program.instructions⟩ there generation
  exact ⟨q, cloneLearner_eq_ok.2 ⟨learner, enlisted, created⟩⟩

theorem addLearner_ok {learner : Learner} (there : p.containsTeam t = true)
    (enlisted : p.learner? l = some learner) (new : l ∉ p.members t) :
    ∃ q, p.addLearner t l = .ok q := by
  obtain ⟨team, found⟩ := containsTeam_iff.1 there
  rw [members_of_team? found] at new
  exact ⟨_, addLearner_eq_ok.2 ⟨team, learner, found, new, enlisted, rfl⟩⟩

theorem dropLearner_ok (exact : p.outline.Exact) (member : l ∈ p.members t) :
    ∃ q, p.dropLearner t l = .ok q := by
  obtain ⟨there, learner, enlisted⟩ := resolve_member exact member
  obtain ⟨team, found⟩ := containsTeam_iff.1 there
  rw [members_of_team? found] at member
  exact ⟨_, dropLearner_eq_ok.2 ⟨team, learner, found, member, enlisted, rfl⟩⟩

/-- The records hold a reference for every action that is a team. -/
theorem mem_references_of_action (exact : p.outline.Exact) {learner : Learner}
    (enlisted : p.learner? l = some learner) {u : TeamId}
    (leads : learner.action.target? = some u) : l ∈ p.references u :=
  exact.reference_iff.2 (target?_eq p l ▸ (target?_of_learner? enlisted).trans leads)

theorem setAction_ok (exact : p.outline.Exact) {learner : Learner}
    (enlisted : p.learner? l = some learner) {action : Action}
    (free : ∀ u, action.target? = some u → p.containsTeam u = true ∧ u ∉ p.teamsOf l) :
    ∃ q, p.setAction l action = .ok q := by
  have held : ∀ u, learner.action.target? = some u →
      l ∈ (p.setLearner l { learner with action }).references u := by
    intro u leads
    exact mem_references_of_action exact enlisted leads
  obtain ⟨r, dropped⟩ := dropTarget_ok held
  have teams : r.containsTeam = p.containsTeam :=
    congrArg Outline.teams (dropTarget_outline dropped).2
  have there : ∀ u, action.target? = some u → r.containsTeam u = true := by
    intro u leads
    exact (congrFun teams u).trans (free u leads).1
  obtain ⟨q, added⟩ := addTarget_ok there l
  refine ⟨q, setAction_eq_ok.2 ⟨learner, r, enlisted, fun u leads => ?_, dropped, added⟩⟩
  exact teamsOf_of_learner? enlisted ▸ (free u leads).2

theorem deleteLearner_ok (exact : p.outline.Exact) {learner : Learner}
    (enlisted : p.learner? l = some learner) (alone : p.teamsOf l = []) :
    ∃ q, p.deleteLearner l = .ok (learner, q) := by
  have held : ∀ u, learner.action.target? = some u →
      l ∈ Population.references { p with learners := p.learners.erase l } u := by
    intro u leads
    exact mem_references_of_action exact enlisted leads
  obtain ⟨q, dropped⟩ := dropTarget_ok held
  rw [teamsOf_of_learner? enlisted] at alone
  exact ⟨q, deleteLearner_eq_ok.2 ⟨enlisted, alone, dropped⟩⟩

theorem releaseMembers_ok {ls : List LearnerId} (exact : p.outline.Exact)
    (listed : p.members t = ls) : ∃ deleted q, releaseMembers t ls p = .ok (deleted, q) := by
  induction ls generalizing p with
  | nil => exact ⟨[], p, rfl⟩
  | cons l rest ih =>
    have member : l ∈ p.members t := by simp [listed]
    obtain ⟨-, learner, enlisted⟩ := resolve_member exact member
    obtain ⟨r, dropped⟩ := dropLearner_ok exact member
    have exact' := exact_dropLearner exact dropped
    have eq := (dropLearner_outline dropped).2
    have remaining : r.members t = rest := by
      rw [← outline_members, eq]
      simp [Outline.leave, listed]
    have policy : r.policy? l = p.policy? l := congrFun (congrArg Outline.policy? eq) l
    rw [policy?_of_learner? enlisted] at policy
    obtain ⟨learner', enlisted', -⟩ := learner?_of_policy? policy
    by_cases empty : learner'.inTeams = []
    · obtain ⟨r', removal⟩ :=
        deleteLearner_ok exact' enlisted' ((teamsOf_of_learner? enlisted').trans empty)
      have members : r'.members = r.members :=
        congrArg Outline.members (deleteLearner_outline removal).2.2
      obtain ⟨deleted, q, run⟩ :=
        ih (exact_deleteLearner exact' removal) (by rw [members, remaining])
      exact ⟨l :: deleted, q, releaseMembers_cons_eq_ok.2 ⟨r, learner', dropped, enlisted',
        .inr ⟨empty, learner', r', deleted, removal, run, rfl⟩⟩⟩
    · obtain ⟨deleted, q, run⟩ := ih exact' remaining
      exact ⟨deleted, q, releaseMembers_cons_eq_ok.2 ⟨r, learner', dropped, enlisted',
        .inl ⟨empty, run⟩⟩⟩

/-- A root can be deleted. -/
theorem deleteTeam_ok (exact : p.outline.Exact) (there : p.containsTeam t = true)
    (root : p.references t = []) : ∃ deleted q, p.deleteTeam t = .ok (deleted, q) := by
  obtain ⟨team, found⟩ := containsTeam_iff.1 there
  obtain ⟨deleted, q, released⟩ := releaseMembers_ok exact (members_of_team? found)
  rw [references_of_team? found] at root
  exact ⟨deleted, _, deleteTeam_eq_ok.2 ⟨team, q, found, root, released, rfl⟩⟩

theorem deleteLearners_ok {ls : List LearnerId} (exact : p.outline.Exact) (nodup : ls.Nodup)
    (there : ∀ l ∈ ls, ∃ learner, p.learner? l = some learner)
    (alone : ∀ l ∈ ls, p.teamsOf l = []) :
    ∃ q, ls.foldlM (fun p l => Prod.snd <$> p.deleteLearner l) p = .ok q := by
  induction ls generalizing p with
  | nil => exact ⟨p, rfl⟩
  | cons l rest ih =>
    obtain ⟨fresh, nodup⟩ := List.nodup_cons.1 nodup
    obtain ⟨⟨learner, enlisted⟩, others⟩ := List.forall_mem_cons.1 there
    obtain ⟨free, freed⟩ := List.forall_mem_cons.1 alone
    obtain ⟨r, removal⟩ := deleteLearner_ok exact enlisted free
    have eq := (deleteLearner_outline removal).2.2
    have spared {k : LearnerId} (hk : k ∈ rest) : k ≠ l := ne_of_mem_of_not_mem hk fresh
    have there' : ∀ k ∈ rest, ∃ learner, r.learner? k = some learner := by
      intro k hk
      obtain ⟨learner', enlisted'⟩ := others k hk
      have policy : r.policy? k = p.policy? k := by
        rw [← outline_policy?, eq, Outline.policy?_discharge, if_neg (spared hk)]
        rfl
      rw [policy?_of_learner? enlisted'] at policy
      obtain ⟨learner'', enlisted'', -⟩ := learner?_of_policy? policy
      exact ⟨learner'', enlisted''⟩
    have alone' : ∀ k ∈ rest, r.teamsOf k = [] := by
      intro k hk
      rw [← outline_teamsOf, eq]
      simpa [Outline.discharge, spared hk] using freed k hk
    obtain ⟨q, run⟩ := ih (exact_deleteLearner exact removal) nodup there' alone'
    refine ⟨q, ?_⟩
    rw [List.foldlM_cons, bind_eq_ok]
    exact ⟨r, map_eq_ok.2 ⟨_, removal, rfl⟩, run⟩

theorem pruneOrphans_ok (exact : p.outline.Exact) :
    ∃ deleted q, p.pruneOrphans = .ok (deleted, q) := by
  have ascending : p.learnerList.Pairwise fun a b => compare a.1 b.1 = .lt :=
    Std.ExtTreeMap.ordered_keys_toList
  have nodup : p.orphans.Nodup := by
    refine List.pairwise_map.2 ((ascending.filter _).imp fun {a b} less eq => ?_)
    simp [eq] at less
  have there : ∀ l ∈ p.orphans, ∃ learner, p.learner? l = some learner := by
    intro l hl
    obtain ⟨⟨program, action, policy⟩, -⟩ := mem_orphans.1 hl
    obtain ⟨learner, enlisted, -⟩ := learner?_of_policy? policy
    exact ⟨learner, enlisted⟩
  have alone : ∀ l ∈ p.orphans, p.teamsOf l = [] := fun l hl => (mem_orphans.1 hl).2
  obtain ⟨q, run⟩ := deleteLearners_ok exact nodup there alone
  exact ⟨p.orphans, q, bind_eq_ok.2 ⟨q, run, rfl⟩⟩

/-- Whether a learner is there and its action is a code. -/
def isAtomicAt (p : Population) (l : LearnerId) : Bool := (p.policy? l).any (·.2.isAtomic)

theorem isAtomicAt_of_learner? {learner : Learner} (enlisted : p.learner? l = some learner) :
    p.isAtomicAt l = learner.isAtomic := by
  rw [isAtomicAt, policy?_of_learner? enlisted]
  rfl

theorem atomicAmong_ok {ls : List LearnerId}
    (there : ∀ l ∈ ls, ∃ learner, p.learner? l = some learner) :
    p.atomicAmong ls = .ok (ls.countP p.isAtomicAt) := by
  induction ls with
  | nil => rfl
  | cons l ls ih =>
    obtain ⟨⟨learner, enlisted⟩, others⟩ := List.forall_mem_cons.1 there
    simp only [atomicAmong, bind_eq_ok, getLearner_eq_ok, pure_eq_ok]
    refine ⟨learner, enlisted, _, ih others, ?_⟩
    rw [List.countP_cons, isAtomicAt_of_learner? enlisted]
    split <;> rfl

theorem atomicCount_ok (exact : p.outline.Exact) (there : p.containsTeam t = true) :
    p.atomicCount t = .ok ((p.members t).countP p.isAtomicAt) := by
  obtain ⟨team, found⟩ := containsTeam_iff.1 there
  have listed := members_of_team? found
  have counted : p.atomicAmong (p.members t) = .ok ((p.members t).countP p.isAtomicAt) :=
    atomicAmong_ok fun l hl => (resolve_member exact hl).2
  rw [listed] at counted ⊢
  exact bind_eq_ok.2 ⟨team, getTeam_eq_ok.2 found, counted⟩

theorem WellFormed.atomic_pos (h : p.WellFormed t) : 0 < (p.members t).countP p.isAtomicAt := by
  obtain ⟨l, hl, program, code, policy⟩ := h.atomic
  exact List.countP_pos_iff.2 ⟨l, hl, by simp [isAtomicAt, policy]⟩

theorem exists_atomic_of_pos {ls : List LearnerId} (h : 0 < ls.countP p.isAtomicAt) :
    ∃ l ∈ ls, ∃ program code, p.policy? l = some (program, .atomic code) := by
  obtain ⟨l, hl, atomic⟩ := List.countP_pos_iff.1 h
  refine ⟨l, hl, ?_⟩
  cases policy : p.policy? l with
  | none => simp [isAtomicAt, policy] at atomic
  | some policy' =>
    obtain ⟨program, action⟩ := policy'
    cases action with
    | atomic code => exact ⟨program, code, rfl⟩
    | team u => simp [isAtomicAt, policy] at atomic

theorem eraseDups_eq_self {xs : List LearnerId} (nodup : xs.Nodup) : xs.eraseDups = xs := by
  induction xs with
  | nil => rfl
  | cons x xs ih =>
    obtain ⟨fresh, nodup⟩ := List.nodup_cons.1 nodup
    have others : xs.filter (fun y => !y == x) = xs := by
      refine List.filter_eq_self.2 fun y hy => ?_
      simpa using ne_of_mem_of_not_mem hy fresh
    rw [List.eraseDups_cons, others, ih nodup]

/-- A well-formed team breaks no rule. -/
theorem teamProblems_ok (exact : p.outline.Exact) (there : p.containsTeam t = true)
    (h : p.WellFormed t) : p.teamProblems t = .ok [] := by
  obtain ⟨team, found⟩ := containsTeam_iff.1 there
  have listed := members_of_team? found
  have own : (p.members t).filterMapM (fun l => do
      let learner ← p.getLearner l
      pure (if learner.target? = some t then some (TeamProblem.ownTarget l t) else none) :
        LearnerId → Except Fault _) = .ok [] := by
    have foreign := h.foreign
    have enlisted : ∀ l ∈ p.members t, ∃ learner, p.learner? l = some learner :=
      fun l hl => (resolve_member exact hl).2
    generalize p.members t = ls at foreign enlisted
    induction ls with
    | nil => rfl
    | cons l ls ih =>
      obtain ⟨apart, foreign⟩ := List.forall_mem_cons.1 foreign
      obtain ⟨⟨learner, found⟩, enlisted⟩ := List.forall_mem_cons.1 enlisted
      rw [target?_of_learner? found] at apart
      have apart' : learner.target? ≠ some t := apart
      simp only [List.filterMapM_cons, bind_assoc, pure_bind, bind_eq_ok, getLearner_eq_ok]
      refine ⟨learner, found, ?_⟩
      rw [if_neg apart']
      exact ih foreign enlisted
  simp only [teamProblems, bind_eq_ok, getTeam_eq_ok, pure_eq_ok]
  refine ⟨team, found, _, atomicCount_ok exact there, [], listed ▸ own, ?_⟩
  have two := h.two_le
  have pos := h.atomic_pos
  have distinct := eraseDups_eq_self h.nodup
  rw [listed] at two distinct
  rw [if_neg (Nat.not_lt.2 two), if_neg (Nat.pos_iff_ne_zero.1 pos), if_pos (by rw [distinct])]
  rfl

theorem assertWellFormed_ok (exact : p.outline.Exact) (there : p.containsTeam t = true)
    (h : p.WellFormed t) : p.assertWellFormed t = .ok () := by
  simp only [assertWellFormed, bind_eq_ok]
  exact ⟨[], teamProblems_ok exact there h, rfl⟩

end TangledGraph.Population
