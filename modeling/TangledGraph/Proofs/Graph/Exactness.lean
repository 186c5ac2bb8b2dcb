import Mathlib.Data.List.Nodup
import TangledGraph.Graph.Audit
import TangledGraph.Proofs.Graph.Outline

/-!
# Exactness of the records

The records of a population are exact if both ends of every edge agree and no
list names anything twice. An audit finds nothing in a population with exact
records; it does not see repetitions, so exactness says more. Every edit that
is no fault keeps the records exact.
-/
namespace TangledGraph

/-- Both ends of every edge agree, and no edge is on record twice. -/
structure Outline.Exact (o : Outline) : Prop where
  member_iff : ∀ {t l}, l ∈ o.members t ↔ t ∈ o.teamsOf l
  reference_iff : ∀ {t l}, l ∈ o.references t ↔ o.target? l = some t
  nodup_members : ∀ t, (o.members t).Nodup
  nodup_references : ∀ t, (o.references t).Nodup
  nodup_teamsOf : ∀ l, (o.teamsOf l).Nodup

namespace Outline

variable {o : Outline} {t : TeamId} {l : LearnerId} {program : Program} {action old : Action}

theorem target?_of_policy? (h : o.policy? l = some (program, action)) :
    o.target? l = action.target? := by simp [target?, h]

theorem target?_of_none (h : o.policy? l = none) : o.target? l = none := by simp [target?, h]

@[simp] theorem target?_enlist (o : Outline) (l k : LearnerId) (program : Program)
    (action : Action) : (o.enlist l program action).target? k =
      if k = l then action.target? else o.target? k := by
  by_cases h : k = l <;> simp [enlist, target?, refer, h]

@[simp] theorem target?_discharge (o : Outline) (l k : LearnerId) (action : Action) :
    (o.discharge l action).target? k = if k = l then none else o.target? k := by
  by_cases h : k = l <;> simp [discharge, target?, unrefer, h]

@[simp] theorem target?_aim (o : Outline) (l k : LearnerId) (program : Program)
    (old action : Action) : (o.aim l program old action).target? k =
      if k = l then action.target? else o.target? k := by
  by_cases h : k = l <;> simp [aim, target?, refer, unrefer, h]

@[simp] theorem target?_teach (o : Outline) (l k : LearnerId) (program : Program)
    (action : Action) : (o.teach l program action).target? k =
      if k = l then action.target? else o.target? k := by
  by_cases h : k = l <;> simp [teach, target?, h]

theorem mem_references_refer {k : LearnerId} : k ∈ (o.refer action l).references t ↔
    k ∈ o.references t ∨ k = l ∧ action.target? = some t := by
  simp only [refer]
  split <;> simp_all

theorem nodup_references_refer (h : (o.references t).Nodup) (new : l ∉ o.references t) :
    ((o.refer action l).references t).Nodup := by
  simp only [refer]
  split
  · have apart : ∀ k ∈ o.references t, k ≠ l := by
      intro k hk
      exact ne_of_mem_of_not_mem hk new
    exact List.nodup_append.2 ⟨h, List.nodup_singleton l, by simpa using apart⟩
  · exact h

theorem found_of_absent (members : o.members t = []) (references : o.references t = []) :
    o.found t = { o with teams := Function.update o.teams t true } := by
  simp only [found, mk.injEq, true_and, and_self, and_true]
  exact ⟨Function.update_eq_self_iff.2 members.symm, Function.update_eq_self_iff.2 references.symm⟩

theorem disband_of_empty (members : o.members t = []) (references : o.references t = []) :
    o.disband t = { o with teams := Function.update o.teams t false } := by
  simp only [disband, mk.injEq, true_and, and_self, and_true]
  exact ⟨Function.update_eq_self_iff.2 members.symm, Function.update_eq_self_iff.2 references.symm⟩

namespace Exact

variable (h : o.Exact)
include h

theorem mem_references_unrefer (policy : o.policy? l = some (program, action))
    {k : LearnerId} : k ∈ (o.unrefer action l).references t ↔ k ≠ l ∧ k ∈ o.references t := by
  simp only [unrefer]
  split
  · rw [(h.nodup_references t).mem_erase_iff]
  case isFalse other =>
    rw [← target?_of_policy? policy, ← h.reference_iff] at other
    exact ⟨fun hk => ⟨fun eq => other (eq ▸ hk), hk⟩, And.right⟩

theorem nodup_references_unrefer : ((o.unrefer action l).references t).Nodup := by
  simp only [unrefer]
  split
  · exact (h.nodup_references t).erase l
  · exact h.nodup_references t

theorem found (members : o.members t = []) (references : o.references t = []) :
    (o.found t).Exact := by
  rw [found_of_absent members references]
  exact ⟨h.member_iff, h.reference_iff, h.nodup_members, h.nodup_references, h.nodup_teamsOf⟩

theorem disband (members : o.members t = []) (references : o.references t = []) :
    (o.disband t).Exact := by
  rw [disband_of_empty members references]
  exact ⟨h.member_iff, h.reference_iff, h.nodup_members, h.nodup_references, h.nodup_teamsOf⟩

theorem join (new : l ∉ o.members t) : (o.join t l).Exact where
  member_iff {u k} := by
    have := h.member_iff (t := u) (l := k)
    simp only [Outline.join, Function.update_apply]
    grind
  reference_iff := h.reference_iff
  nodup_members u := by
    have := h.nodup_members u
    simp only [Outline.join, Function.update_apply]
    grind
  nodup_references := h.nodup_references
  nodup_teamsOf k := by
    have := h.nodup_teamsOf k
    have := h.member_iff (t := t) (l := l)
    simp only [Outline.join, Function.update_apply]
    grind

theorem leave (t : TeamId) (l : LearnerId) : (o.leave t l).Exact where
  member_iff {u k} := by
    have := h.member_iff (t := u) (l := k)
    have := (h.nodup_members t).mem_erase_iff (a := k) (b := l)
    simp only [Outline.leave, Function.update_apply]
    grind
  reference_iff := h.reference_iff
  nodup_members u := by
    have := h.nodup_members u
    simp only [Outline.leave, Function.update_apply]
    split
    · exact (h.nodup_members t).erase l
    · exact this
  nodup_references := h.nodup_references
  nodup_teamsOf k := by
    simp only [Outline.leave, Function.update_apply]
    split
    · exact (h.nodup_teamsOf l).filter _
    · exact h.nodup_teamsOf k

theorem enlist (new : o.policy? l = none) (alone : o.teamsOf l = []) (program : Program)
    (action : Action) : (o.enlist l program action).Exact := by
  have unreferred (t) : l ∉ o.references t := by
    rw [h.reference_iff, target?_of_none new]
    simp
  have teamsOf : (o.enlist l program action).teamsOf = o.teamsOf :=
    Function.update_eq_self_iff.2 alone.symm
  have reference {t k} : k ∈ (o.enlist l program action).references t ↔
      (o.enlist l program action).target? k = some t := by
    have listed : k ∈ (o.enlist l program action).references t ↔
        k ∈ o.references t ∨ k = l ∧ action.target? = some t := mem_references_refer
    rw [listed, h.reference_iff, target?_enlist]
    have := target?_of_none new
    grind
  exact {
    member_iff := teamsOf ▸ h.member_iff
    reference_iff := reference
    nodup_members := h.nodup_members
    nodup_references := fun t => nodup_references_refer (h.nodup_references t) (unreferred t)
    nodup_teamsOf := teamsOf ▸ h.nodup_teamsOf }

theorem discharge (policy : o.policy? l = some (program, action)) (alone : o.teamsOf l = []) :
    (o.discharge l action).Exact := by
  have teamsOf : (o.discharge l action).teamsOf = o.teamsOf :=
    Function.update_eq_self_iff.2 alone.symm
  have reference {t k} : k ∈ (o.discharge l action).references t ↔
      (o.discharge l action).target? k = some t := by
    have listed : k ∈ (o.discharge l action).references t ↔ k ≠ l ∧ k ∈ o.references t :=
      h.mem_references_unrefer policy
    rw [listed, h.reference_iff, target?_discharge]
    grind
  exact {
    member_iff := teamsOf ▸ h.member_iff
    reference_iff := reference
    nodup_members := h.nodup_members
    nodup_references := fun _ => h.nodup_references_unrefer
    nodup_teamsOf := teamsOf ▸ h.nodup_teamsOf }

theorem teach (policy : o.policy? l = some (program, action)) (program' : Program) :
    (o.teach l program' action).Exact := by
  have target : ∀ k, (o.teach l program' action).target? k = o.target? k := by
    intro k
    rw [target?_teach]
    by_cases same : k = l
    · rw [if_pos same, same, target?_of_policy? policy]
    · rw [if_neg same]
  have reference {t k} : k ∈ (o.teach l program' action).references t ↔
      (o.teach l program' action).target? k = some t := by
    rw [target]
    exact h.reference_iff
  exact ⟨h.member_iff, reference, h.nodup_members, h.nodup_references, h.nodup_teamsOf⟩

theorem aim (policy : o.policy? l = some (program, old)) (program' : Program)
    (action : Action) : (o.aim l program' old action).Exact := by
  have unreferred (t) : l ∉ (o.unrefer old l).references t := by
    simp [h.mem_references_unrefer policy]
  have reference {t k} : k ∈ (o.aim l program' old action).references t ↔
      (o.aim l program' old action).target? k = some t := by
    have listed : k ∈ (o.aim l program' old action).references t ↔
        k ∈ (o.unrefer old l).references t ∨ k = l ∧ action.target? = some t :=
      mem_references_refer
    rw [listed, h.mem_references_unrefer policy, h.reference_iff, target?_aim]
    grind
  have nodup : ∀ t, ((o.aim l program' old action).references t).Nodup := by
    intro t
    exact nodup_references_refer h.nodup_references_unrefer (unreferred t)
  exact ⟨h.member_iff, reference, h.nodup_members, nodup, h.nodup_teamsOf⟩

end Exact

end Outline

namespace Population

variable {p q : Population} {t : TeamId} {l : LearnerId}

/-- What is on record resolves: the team of a membership is there, and so is
its learner. -/
theorem resolve_member (exact : p.outline.Exact) (h : l ∈ p.members t) :
    p.containsTeam t ∧ ∃ learner, p.learner? l = some learner :=
  ⟨containsTeam_of_mem_members h, learner?_of_mem_teamsOf (exact.member_iff.1 h)⟩

/-- The target of an action is there. -/
theorem resolve_target (exact : p.outline.Exact) (h : p.target? l = some t) :
    p.containsTeam t :=
  containsTeam_of_mem_references (exact.reference_iff.2 (target?_eq p l ▸ h))

theorem members_eq_nil (h : p.containsTeam t = false) : p.members t = [] := by
  refine List.eq_nil_iff_forall_not_mem.2 fun l hl => ?_
  simp [containsTeam_of_mem_members hl] at h

theorem references_eq_nil (h : p.containsTeam t = false) : p.references t = [] := by
  refine List.eq_nil_iff_forall_not_mem.2 fun l hl => ?_
  simp [containsTeam_of_mem_references hl] at h

theorem teamsOf_eq_nil (h : p.policy? l = none) : p.teamsOf l = [] := by
  refine List.eq_nil_iff_forall_not_mem.2 fun t ht => ?_
  obtain ⟨learner, enlisted⟩ := learner?_of_mem_teamsOf ht
  simp [policy?_of_learner? enlisted] at h

/-- A team under a new identity changes nothing else. -/
theorem createTeam_new {c : Counters} (new : p.containsTeam ⟨c.team⟩ = false) (generation : Nat) :
    (p.createTeam c generation).2.1.outline =
      { p.outline with teams := Function.update p.containsTeam ⟨c.team⟩ true } :=
  (createTeam_outline p c generation).trans
    (Outline.found_of_absent (members_eq_nil new) (references_eq_nil new))

theorem exact_createTeam {c : Counters} (exact : p.outline.Exact)
    (new : p.containsTeam ⟨c.team⟩ = false) (generation : Nat) :
    (p.createTeam c generation).2.1.outline.Exact := by
  rw [createTeam_outline]
  exact exact.found (members_eq_nil new) (references_eq_nil new)

theorem exact_createLearner {c d : Counters} {program : Program} {action : Action}
    {generation : Nat} (exact : p.outline.Exact) (new : p.policy? ⟨c.learner⟩ = none)
    (run : p.createLearner c program action generation = .ok (l, q, d)) : q.outline.Exact := by
  obtain ⟨rfl, -, -, eq⟩ := createLearner_outline run
  rw [eq]
  exact exact.enlist new (teamsOf_eq_nil new) program action

theorem exact_addLearner (exact : p.outline.Exact) (run : p.addLearner t l = .ok q) :
    q.outline.Exact := by
  obtain ⟨-, new, eq⟩ := addLearner_outline run
  rw [eq]
  exact exact.join new

theorem exact_dropLearner (exact : p.outline.Exact) (run : p.dropLearner t l = .ok q) :
    q.outline.Exact := by
  rw [(dropLearner_outline run).2]
  exact exact.leave t l

theorem exact_setAction {action : Action} (exact : p.outline.Exact)
    (run : p.setAction l action = .ok q) : q.outline.Exact := by
  obtain ⟨program, old, policy, -, eq⟩ := setAction_outline run
  rw [eq]
  exact exact.aim policy program action

theorem exact_deleteLearner {learner : Learner} (exact : p.outline.Exact)
    (run : p.deleteLearner l = .ok (learner, q)) : q.outline.Exact := by
  obtain ⟨enlisted, alone, eq⟩ := deleteLearner_outline run
  rw [eq]
  exact exact.discharge (policy?_of_learner? enlisted) alone

/-- A program is written again: no record changes. -/
theorem setProgram_outline {learner : Learner} (enlisted : p.learner? l = some learner)
    (program : Program) : (p.setLearner l { learner with program }).outline =
      p.outline.teach l program learner.action := by
  rw [outline_setLearner, ← teamsOf_of_learner? enlisted, Function.update_eq_self]
  rfl

theorem exact_setProgram {learner : Learner} (exact : p.outline.Exact)
    (enlisted : p.learner? l = some learner) (program : Program) :
    (p.setLearner l { learner with program }).outline.Exact := by
  rw [setProgram_outline enlisted]
  exact exact.teach (policy?_of_learner? enlisted) program

theorem mem_teamList {team : Team} : (t, team) ∈ p.teamList ↔ p.team? t = some team :=
  Std.ExtTreeMap.mem_toList_iff_getElem?_eq_some

theorem mem_learnerList {learner : Learner} :
    (l, learner) ∈ p.learnerList ↔ p.learner? l = some learner :=
  Std.ExtTreeMap.mem_toList_iff_getElem?_eq_some

theorem teamEdgeProblems_eq_nil_iff {team : Team} (found : p.team? t = some team) :
    p.teamEdgeProblems t team = [] ↔
      (∀ l ∈ p.members t, t ∈ p.teamsOf l) ∧ ∀ l ∈ p.references t, p.target? l = some t := by
  simp only [teamEdgeProblems, List.append_eq_nil_iff, List.filterMap_eq_nil_iff,
    members_of_team? found, references_of_team? found, target?]
  refine and_congr (forall₂_congr fun l _ => ?_) (forall₂_congr fun l _ => ?_)
  · cases enlisted : p.learner? l <;> simp [teamsOf, enlisted]
  · simp

theorem learnerEdgeProblems_eq_nil_iff {learner : Learner}
    (enlisted : p.learner? l = some learner) :
    p.learnerEdgeProblems l learner = [] ↔
      (∀ t ∈ p.teamsOf l, l ∈ p.members t) ∧ ∀ t, p.target? l = some t → l ∈ p.references t := by
  simp only [learnerEdgeProblems, List.append_eq_nil_iff, List.filterMap_eq_nil_iff,
    teamsOf_of_learner? enlisted, Option.mem_toList, target?, enlisted, Option.bind_some]
  refine and_congr (forall₂_congr fun t _ => ?_) (forall₂_congr fun t _ => ?_)
  · cases found : p.team? t <;> simp [members, found]
  · cases found : p.team? t <;> simp [references, found]

/-- An audit finds nothing exactly if both ends of every edge agree. -/
theorem audit_eq_nil_iff : p.audit = [] ↔
    (∀ t l, l ∈ p.members t ↔ t ∈ p.teamsOf l) ∧
      ∀ t l, l ∈ p.references t ↔ p.target? l = some t := by
  have unfolded : p.audit = [] ↔
      (∀ t team, p.team? t = some team → p.teamEdgeProblems t team = []) ∧
        ∀ l learner, p.learner? l = some learner → p.learnerEdgeProblems l learner = [] := by
    simp [audit, List.flatMap_eq_nil_iff, mem_teamList, mem_learnerList]
  rw [unfolded]
  constructor
  · rintro ⟨ofTeams, ofLearners⟩
    have teamEdges {t team} (found : p.team? t = some team) :=
      (teamEdgeProblems_eq_nil_iff found).1 (ofTeams t team found)
    have learnerEdges {l learner} (enlisted : p.learner? l = some learner) :=
      (learnerEdgeProblems_eq_nil_iff enlisted).1 (ofLearners l learner enlisted)
    constructor
    · intro t l
      constructor
      · intro h
        obtain ⟨team, found⟩ := containsTeam_iff.1 (containsTeam_of_mem_members h)
        exact (teamEdges found).1 l h
      · intro h
        obtain ⟨learner, enlisted⟩ := learner?_of_mem_teamsOf h
        exact (learnerEdges enlisted).1 t h
    · intro t l
      constructor
      · intro h
        obtain ⟨team, found⟩ := containsTeam_iff.1 (containsTeam_of_mem_references h)
        exact (teamEdges found).2 l h
      · intro h
        obtain ⟨learner, enlisted, -⟩ := Option.bind_eq_some_iff.1 h
        exact (learnerEdges enlisted).2 t h
  · rintro ⟨member, reference⟩
    constructor
    · intro t team found
      exact (teamEdgeProblems_eq_nil_iff found).2
        ⟨fun l => (member t l).1, fun l => (reference t l).1⟩
    · intro l learner enlisted
      exact (learnerEdgeProblems_eq_nil_iff enlisted).2
        ⟨fun t => (member t l).2, fun t => (reference t l).2⟩

theorem audit_eq_nil (exact : p.outline.Exact) : p.audit = [] :=
  audit_eq_nil_iff.2 ⟨fun _ _ => exact.member_iff,
    fun _ l => target?_eq p l ▸ exact.reference_iff⟩

end Population

end TangledGraph
