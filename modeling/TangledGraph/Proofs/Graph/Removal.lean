import TangledGraph.Proofs.Graph.Exactness

/-!
# Removal of teams and learners

What a removal leaves is a part of the population: teams keep their lists and
learners their policies. A root goes with the learners that only it had; the
learners that are on no team go together, and then every learner is on a team.
-/
namespace TangledGraph

/-- Every team and learner of one outline is in the other, the team with the
same list, the learner with the same policy. -/
structure Outline.PartOf (o o' : Outline) : Prop where
  teams : ∀ {t}, o.teams t = true → o'.teams t = true
  members : ∀ {t}, o.teams t = true → o'.members t = o.members t
  policy : ∀ {l policy}, o.policy? l = some policy → o'.policy? l = some policy

namespace Outline.PartOf

variable {o o' o'' : Outline}

theorem refl (o : Outline) : o.PartOf o := ⟨id, fun _ => rfl, id⟩

theorem trans (h : o.PartOf o') (h' : o'.PartOf o'') : o.PartOf o'' where
  teams ht := h'.teams (h.teams ht)
  members ht := (h'.members (h.teams ht)).trans (h.members ht)
  policy hl := h'.policy (h.policy hl)

end Outline.PartOf

namespace Population

variable {p q : Population} {t : TeamId} {l : LearnerId}

/-- No action leads to a root while learners keep their policies or go. -/
theorem references_eq_nil_of_policy (exact : p.outline.Exact) (exact' : q.outline.Exact)
    (kept : ∀ {l policy}, q.policy? l = some policy → p.policy? l = some policy)
    (root : p.references t = []) : q.references t = [] := by
  refine List.eq_nil_iff_forall_not_mem.2 fun l hl => ?_
  obtain ⟨policy, enlisted, leads⟩ := Option.bind_eq_some_iff.1 (exact'.reference_iff.1 hl)
  have before : l ∈ p.references t :=
    exact.reference_iff.2 (Option.bind_eq_some_iff.2 ⟨policy, kept enlisted, leads⟩)
  simp [root] at before

theorem references_eq_nil_of_partOf (exact : p.outline.Exact) (exact' : q.outline.Exact)
    (part : q.outline.PartOf p.outline) (root : p.references t = []) : q.references t = [] :=
  references_eq_nil_of_policy exact exact' part.policy root

/-- Only a learner on no team can be deleted, and nothing else changes. -/
theorem deleteLearner_partOf {learner : Learner} (run : p.deleteLearner l = .ok (learner, q)) :
    q.outline.PartOf p.outline := by
  obtain ⟨-, -, eq⟩ := deleteLearner_outline run
  rw [eq]
  have policies {k policy} (hk : (p.outline.discharge l learner.action).policy? k = some policy) :
      p.outline.policy? k = some policy := by
    rw [Outline.policy?_discharge] at hk
    by_cases same : k = l
    · simp [same] at hk
    · rwa [if_neg same] at hk
  exact ⟨id, fun _ => rfl, policies⟩

/-- The teams of the second population are those of the first and have the same lists,
but for one team; its learners are learners of the first, with the same policies. -/
structure Shrinks (t : TeamId) (p q : Population) : Prop where
  teams : q.containsTeam = p.containsTeam
  others : ∀ u, u ≠ t → q.members u = p.members u
  policy : ∀ {l policy}, q.policy? l = some policy → p.policy? l = some policy

theorem Shrinks.trans {r : Population} (h : Shrinks t p r) (h' : Shrinks t r q) :
    Shrinks t p q where
  teams := h'.teams.trans h.teams
  others u other := (h'.others u other).trans (h.others u other)
  policy hl := h.policy (h'.policy hl)

theorem dropLearner_shrinks (run : p.dropLearner t l = .ok q) : Shrinks t p q := by
  have eq := (dropLearner_outline run).2
  have members := congrArg Outline.members eq
  have policy := congrArg Outline.policy? eq
  exact ⟨congrArg Outline.teams eq,
    fun u other => (congrFun members u).trans (Function.update_of_ne other ..),
    fun hl => (congrFun policy _).symm.trans hl⟩

theorem deleteLearner_shrinks {learner : Learner} (run : p.deleteLearner l = .ok (learner, q)) :
    Shrinks t p q := by
  have eq := (deleteLearner_outline run).2.2
  have members := congrArg Outline.members eq
  exact ⟨congrArg Outline.teams eq, fun u _ => congrFun members u,
    (deleteLearner_partOf run).policy⟩

/-- Taking learners off a team leaves other teams and policies as they are. -/
theorem releaseMembers_shrinks {ls deleted : List LearnerId}
    (run : releaseMembers t ls p = .ok (deleted, q)) : Shrinks t p q := by
  induction ls generalizing p deleted with
  | nil =>
    obtain ⟨-, rfl⟩ := releaseMembers_nil_eq_ok.1 run
    exact ⟨rfl, fun _ _ => rfl, id⟩
  | cons l rest ih =>
    obtain ⟨r, learner, dropped, -, ⟨-, run⟩ | ⟨-, removed, r', deleted', removal, run, -⟩⟩ :=
      releaseMembers_cons_eq_ok.1 run
    · exact (dropLearner_shrinks dropped).trans (ih run)
    · exact (dropLearner_shrinks dropped).trans ((deleteLearner_shrinks removal).trans (ih run))

/-- Taking all its learners off a team empties it. -/
theorem releaseMembers_outline {ls deleted : List LearnerId} (exact : p.outline.Exact)
    (listed : p.members t = ls) (run : releaseMembers t ls p = .ok (deleted, q)) :
    q.outline.Exact ∧ q.members t = [] := by
  induction ls generalizing p deleted with
  | nil =>
    obtain ⟨-, rfl⟩ := releaseMembers_nil_eq_ok.1 run
    exact ⟨exact, listed⟩
  | cons l rest ih =>
    obtain ⟨r, learner, dropped, -, runs⟩ := releaseMembers_cons_eq_ok.1 run
    have exact' := exact_dropLearner exact dropped
    have left : r.members t = rest := by
      rw [← outline_members, (dropLearner_outline dropped).2]
      simp [Outline.leave, listed]
    obtain ⟨-, run⟩ | ⟨-, removed, r', deleted', removal, run, -⟩ := runs
    · exact ih exact' left run
    · have members : r'.members = r.members :=
        congrArg Outline.members (deleteLearner_outline removal).2.2
      exact ih (exact_deleteLearner exact' removal) ((congrFun members t).trans left) run

/-- Only a root can be deleted. What is left is a part of the population without
that team. -/
theorem deleteTeam_outline {deleted : List LearnerId} (exact : p.outline.Exact)
    (run : p.deleteTeam t = .ok (deleted, q)) :
    p.references t = [] ∧ q.outline.Exact ∧
      q.containsTeam = Function.update p.containsTeam t false ∧ q.outline.PartOf p.outline := by
  obtain ⟨team, r, found, root, released, rfl⟩ := deleteTeam_eq_ok.1 run
  have unreferred : p.references t = [] := (references_of_team? found).trans root
  obtain ⟨exactr, emptied⟩ := releaseMembers_outline exact (members_of_team? found) released
  have shrinks := releaseMembers_shrinks released
  have unreferred' : r.references t = [] :=
    references_eq_nil_of_policy exact exactr shrinks.policy unreferred
  have remaining : Population.containsTeam { r with teams := r.teams.erase t } =
      Function.update p.containsTeam t false := by
    have erased : Population.containsTeam { r with teams := r.teams.erase t } =
        (r.outline.disband t).teams := congrArg Outline.teams (outline_eraseTeam r t)
    rw [erased, ← shrinks.teams]
    rfl
  have spared {u} (hu : (r.outline.disband t).teams u = true) : u ≠ t := by
    rintro rfl
    simp [Outline.disband] at hu
  have part : (r.outline.disband t).PartOf p.outline := by
    constructor
    · intro u hu
      simp only [Outline.disband, Function.update_of_ne (spared hu)] at hu
      exact (congrFun shrinks.teams u).symm.trans hu
    · intro u hu
      simp only [Outline.disband, Function.update_of_ne (spared hu)]
      exact (shrinks.others u (spared hu)).symm
    · intro l x hl
      exact shrinks.policy hl
  rw [outline_eraseTeam]
  exact ⟨unreferred, exactr.disband emptied unreferred', remaining, part⟩

/-- Deleting listed learners that are on no team changes nothing else. -/
theorem deleteLearners_outline {ls : List LearnerId} (exact : p.outline.Exact)
    (run : ls.foldlM (fun p l => Prod.snd <$> p.deleteLearner l) p = .ok q) :
    q.outline.Exact ∧ q.containsTeam = p.containsTeam ∧ q.members = p.members ∧
      q.teamsOf = p.teamsOf ∧ ∀ l, q.policy? l = if l ∈ ls then none else p.policy? l := by
  induction ls generalizing p with
  | nil =>
    simp only [List.foldlM_nil, pure_eq_ok] at run
    subst run
    exact ⟨exact, rfl, rfl, rfl, fun l => by simp⟩
  | cons l rest ih =>
    simp only [List.foldlM_cons, bind_eq_ok, map_eq_ok] at run
    obtain ⟨r, ⟨⟨removed, r'⟩, removal, rfl⟩, run⟩ := run
    obtain ⟨-, alone, eq⟩ := deleteLearner_outline removal
    obtain ⟨exactq, teams, members, teamsOf, policy⟩ := ih (exact_deleteLearner exact removal) run
    have teams' : r'.containsTeam = p.containsTeam := congrArg Outline.teams eq
    have members' : r'.members = p.members := congrArg Outline.members eq
    have teamsOf' : r'.teamsOf = p.teamsOf :=
      (congrArg Outline.teamsOf eq).trans (Function.update_eq_self_iff.2 alone.symm)
    have policies : ∀ k, q.policy? k = if k ∈ l :: rest then none else p.policy? k := by
      intro k
      have policy' : r'.policy? k = if k = l then none else p.policy? k := by
        rw [← outline_policy?, eq, Outline.policy?_discharge]
        rfl
      rw [policy, policy']
      by_cases same : k = l <;> simp [same]
    exact ⟨exactq, teams.trans teams', members.trans members', teamsOf.trans teamsOf', policies⟩

theorem mem_orphans : l ∈ p.orphans ↔
    (∃ program action, p.policy? l = some (program, action)) ∧ p.teamsOf l = [] := by
  simp only [orphans, List.mem_map, List.mem_filter, Prod.exists, mem_learnerList]
  constructor
  · rintro ⟨k, learner, ⟨enlisted, alone⟩, rfl⟩
    refine ⟨by simp [policy?_of_learner? enlisted], ?_⟩
    simpa [teamsOf_of_learner? enlisted] using alone
  · rintro ⟨⟨program, action, h⟩, alone⟩
    obtain ⟨learner, enlisted, -⟩ := learner?_of_policy? h
    rw [teamsOf_of_learner? enlisted] at alone
    exact ⟨l, learner, ⟨enlisted, by simp [alone]⟩, rfl⟩

/-- Pruning deletes the learners on no team and changes nothing else. -/
theorem pruneOrphans_outline {deleted : List LearnerId} (exact : p.outline.Exact)
    (run : p.pruneOrphans = .ok (deleted, q)) :
    q.outline.Exact ∧ q.containsTeam = p.containsTeam ∧ q.members = p.members ∧
      q.teamsOf = p.teamsOf ∧
      ∀ l, q.policy? l = if p.teamsOf l = [] then none else p.policy? l := by
  simp only [pruneOrphans, bind_eq_ok, pure_eq_ok, Prod.mk.injEq] at run
  obtain ⟨r, run, -, rfl⟩ := run
  obtain ⟨exactq, teams, members, teamsOf, policy⟩ := deleteLearners_outline exact run
  have policies : ∀ l, r.policy? l = if p.teamsOf l = [] then none else p.policy? l := by
    intro l
    rw [policy]
    by_cases orphan : l ∈ p.orphans
    · rw [if_pos orphan, if_pos (mem_orphans.1 orphan).2]
    · rw [if_neg orphan]
      by_cases alone : p.teamsOf l = []
      · rw [if_pos alone]
        refine Option.eq_none_iff_forall_not_mem.2 fun policy h => ?_
        exact orphan (mem_orphans.2 ⟨⟨policy.1, policy.2, h⟩, alone⟩)
      · rw [if_neg alone]
  exact ⟨exactq, teams, members, teamsOf, policies⟩

theorem pruneOrphans_partOf {deleted : List LearnerId} (exact : p.outline.Exact)
    (run : p.pruneOrphans = .ok (deleted, q)) : q.outline.PartOf p.outline := by
  obtain ⟨-, teams, members, -, policy⟩ := pruneOrphans_outline exact run
  constructor
  · intro t ht
    exact (congrFun teams t).symm.trans ht
  · intro t _
    exact congrFun members.symm t
  · intro l x hl
    rw [outline_policy?, policy l] at hl
    by_cases alone : p.teamsOf l = []
    · simp [alone] at hl
    · rwa [if_neg alone] at hl

end Population

end TangledGraph
