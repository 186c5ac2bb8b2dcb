import TangledGraph.Graph.Edit
import TangledGraph.Proofs.Yields

/-!
# Edits, taken apart

An edit goes through if the records that it finds are as it asks, and then it is known
what it has written. What is shown of edits starts from these equivalences: how the
outline changes, what becomes of every record, and which edits can be made.
-/
namespace TangledGraph.Population

variable {p q : Population} {t : TeamId} {l : LearnerId} {action : Action}

@[simp] theorem team?_setTeam (p : Population) (t u : TeamId) (team : Team) :
    (p.setTeam t team).team? u = if u = t then some team else p.team? u := by
  simp only [team?, setTeam, Std.ExtTreeMap.getElem?_insert, Std.LawfulEqCmp.compare_eq_iff_eq,
    @eq_comm _ t u]

@[simp] theorem learner?_setTeam (p : Population) (t : TeamId) (team : Team) (l : LearnerId) :
    (p.setTeam t team).learner? l = p.learner? l := rfl

@[simp] theorem learner?_setLearner (p : Population) (l k : LearnerId) (learner : Learner) :
    (p.setLearner l learner).learner? k = if k = l then some learner else p.learner? k := by
  simp only [learner?, setLearner, Std.ExtTreeMap.getElem?_insert,
    Std.LawfulEqCmp.compare_eq_iff_eq, @eq_comm _ l k]

@[simp] theorem team?_setLearner (p : Population) (l : LearnerId) (learner : Learner)
    (t : TeamId) : (p.setLearner l learner).team? t = p.team? t := rfl

@[simp] theorem team?_eraseTeam (p : Population) (t u : TeamId) :
    Population.team? { p with teams := p.teams.erase t } u = if u = t then none else p.team? u := by
  simp only [team?, Std.ExtTreeMap.getElem?_erase, Std.LawfulEqCmp.compare_eq_iff_eq,
    @eq_comm _ t u]

@[simp] theorem learner?_eraseLearner (p : Population) (l k : LearnerId) :
    Population.learner? { p with learners := p.learners.erase l } k =
      if k = l then none else p.learner? k := by
  simp only [learner?, Std.ExtTreeMap.getElem?_erase, Std.LawfulEqCmp.compare_eq_iff_eq,
    @eq_comm _ l k]

@[simp] theorem getTeam_eq_ok {team : Team} : p.getTeam t = .ok team ↔ p.team? t = some team := by
  unfold getTeam
  split <;> simp_all

@[simp] theorem getLearner_eq_ok {learner : Learner} :
    p.getLearner l = .ok learner ↔ p.learner? l = some learner := by
  unfold getLearner
  split <;> simp_all

theorem addTarget_of_none (none : action.target? = none) (l : LearnerId) :
    p.addTarget action l = .ok p := by
  simp only [addTarget, none]
  rfl

theorem dropTarget_of_none (none : action.target? = none) (l : LearnerId) :
    p.dropTarget action l = .ok p := by
  simp only [dropTarget, none]
  rfl

theorem addTarget_eq_ok (leads : action.target? = some t) : p.addTarget action l = .ok q ↔
    ∃ team, p.team? t = some team ∧
      p.setTeam t { team with inLearners := team.inLearners ++ [l] } = q := by
  simp only [addTarget, leads, addReference, bind_eq_ok, getTeam_eq_ok, pure_eq_ok]

theorem dropTarget_eq_ok (leads : action.target? = some t) : p.dropTarget action l = .ok q ↔
    ∃ team, p.team? t = some team ∧ l ∈ team.inLearners ∧
      p.setTeam t { team with inLearners := team.inLearners.erase l } = q := by
  simp only [dropTarget, leads, dropReference, bind_eq_ok, getTeam_eq_ok]
  refine exists_congr fun team => and_congr_right fun _ => ?_
  split
  case isTrue held => simp [held]
  case isFalse free => simp [free]

theorem createLearner_eq_ok {c d : Counters} {program : Program} {generation : Nat} :
    p.createLearner c program action generation = .ok (l, q, d) ↔
      l = ⟨c.learner⟩ ∧ d = { c with learner := c.learner + 1 } ∧
        ∃ r, p.addTarget action l = .ok r ∧
          r.setLearner l { program, action, generation } = q := by
  simp only [createLearner, Counters.newLearner, bind_eq_ok, pure_eq_ok, Prod.mk.injEq]
  constructor
  · rintro ⟨r, added, rfl, rfl, rfl⟩
    exact ⟨rfl, rfl, r, added, rfl⟩
  · rintro ⟨rfl, rfl, r, added, rfl⟩
    exact ⟨r, added, rfl, rfl, rfl⟩

theorem cloneLearner_eq_ok {c d : Counters} {source : LearnerId} {generation : Nat} :
    p.cloneLearner c source generation = .ok (l, q, d) ↔
      ∃ original, p.learner? source = some original ∧
        p.createLearner { c with program := c.program + 1 }
          ⟨⟨c.program⟩, original.program.instructions⟩ original.action generation =
            .ok (l, q, d) := by
  simp only [cloneLearner, bind_eq_ok, getLearner_eq_ok]
  rfl

theorem addLearner_eq_ok : p.addLearner t l = .ok q ↔
    ∃ team learner, p.team? t = some team ∧ l ∉ team.learners ∧ p.learner? l = some learner ∧
      (p.setTeam t { team with learners := team.learners ++ [l] }).setLearner l
        { learner with inTeams := learner.inTeams ++ [t] } = q := by
  simp only [addLearner, bind_eq_ok, getTeam_eq_ok, exists_and_left]
  refine exists_congr fun team => and_congr_right fun _ => ?_
  split
  case isTrue held => simp [bind_eq_ok, held]
  case isFalse new =>
    simp only [bind_eq_ok, getLearner_eq_ok, learner?_setTeam, pure_eq_ok, new, not_false_eq_true,
      true_and]

theorem dropLearner_eq_ok : p.dropLearner t l = .ok q ↔
    ∃ team learner, p.team? t = some team ∧ l ∈ team.learners ∧ p.learner? l = some learner ∧
      (p.setTeam t { team with learners := team.learners.erase l }).setLearner l
        { learner with inTeams := learner.inTeams.filter (· != t) } = q := by
  simp only [dropLearner, bind_eq_ok, getTeam_eq_ok, exists_and_left]
  refine exists_congr fun team => and_congr_right fun _ => ?_
  split
  case isTrue free => simp [bind_eq_ok, free]
  case isFalse held =>
    have member : l ∈ team.learners := Decidable.not_not.1 held
    simp only [bind_eq_ok, getLearner_eq_ok, learner?_setTeam, pure_eq_ok, member, true_and]

theorem setAction_eq_ok : p.setAction l action = .ok q ↔
    ∃ learner r, p.learner? l = some learner ∧
      (∀ u, action.target? = some u → u ∉ learner.inTeams) ∧
      (p.setLearner l { learner with action }).dropTarget learner.action l = .ok r ∧
      r.addTarget action l = .ok q := by
  unfold setAction
  cases target : action.target? with
  | none => simp [bind_eq_ok]
  | some t =>
    simp only [bind_eq_ok, getLearner_eq_ok]
    constructor
    · rintro ⟨learner, enlisted, run⟩
      split at run
      case isTrue => simp [bind_eq_ok] at run
      case isFalse apart =>
        simp only [bind_eq_ok, getLearner_eq_ok] at run
        obtain ⟨learner', enlisted', r, dropped, added⟩ := run
        obtain rfl : learner = learner' := Option.some.inj (enlisted.symm.trans enlisted')
        exact ⟨learner, r, enlisted, by simpa using apart, dropped, added⟩
    · rintro ⟨learner, r, enlisted, apart, dropped, added⟩
      refine ⟨learner, enlisted, ?_⟩
      rw [if_neg (apart t rfl)]
      exact bind_eq_ok.2 ⟨learner, getLearner_eq_ok.2 enlisted, bind_eq_ok.2 ⟨r, dropped, added⟩⟩

theorem deleteLearner_eq_ok {learner : Learner} : p.deleteLearner l = .ok (learner, q) ↔
    p.learner? l = some learner ∧ learner.inTeams = [] ∧
      Population.dropTarget { p with learners := p.learners.erase l } learner.action l = .ok q := by
  simp only [deleteLearner, bind_eq_ok, getLearner_eq_ok]
  constructor
  · rintro ⟨learner', enlisted, run⟩
    split at run
    case isTrue => simp [bind_eq_ok] at run
    case isFalse alone =>
      simp only [bind_eq_ok, pure_eq_ok, Prod.mk.injEq] at run
      obtain ⟨r, dropped, rfl, rfl⟩ := run
      exact ⟨enlisted, by simpa using alone, dropped⟩
  · rintro ⟨enlisted, alone, dropped⟩
    refine ⟨learner, enlisted, ?_⟩
    simp only [alone, List.isEmpty_nil]
    exact bind_eq_ok.2 ⟨q, dropped, rfl⟩

theorem releaseMembers_nil_eq_ok {deleted : List LearnerId} :
    releaseMembers t [] p = .ok (deleted, q) ↔ [] = deleted ∧ p = q := by
  simp only [releaseMembers, pure_eq_ok, Prod.mk.injEq]

/-- The first of the learners stays, or it is on no team any more and goes as well. -/
theorem releaseMembers_cons_eq_ok {rest deleted : List LearnerId} :
    releaseMembers t (l :: rest) p = .ok (deleted, q) ↔
      ∃ r learner, p.dropLearner t l = .ok r ∧ r.learner? l = some learner ∧
        (learner.inTeams ≠ [] ∧ releaseMembers t rest r = .ok (deleted, q) ∨
          learner.inTeams = [] ∧ ∃ removed r' deleted', r.deleteLearner l = .ok (removed, r') ∧
            releaseMembers t rest r' = .ok (deleted', q) ∧ l :: deleted' = deleted) := by
  simp only [releaseMembers, bind_eq_ok, getLearner_eq_ok]
  constructor
  · rintro ⟨r, dropped, learner, enlisted, run⟩
    refine ⟨r, learner, dropped, enlisted, ?_⟩
    split at run
    case isFalse stays => exact .inl ⟨by simpa using stays, run⟩
    case isTrue goes =>
      simp only [bind_eq_ok, pure_eq_ok, Prod.mk.injEq] at run
      obtain ⟨⟨removed, r'⟩, removal, ⟨deleted', _⟩, run, rfl, rfl⟩ := run
      exact .inr ⟨by simpa using goes, removed, r', deleted', removal, run, rfl⟩
  · rintro ⟨r, learner, dropped, enlisted, ⟨stays, run⟩ |
      ⟨goes, removed, r', deleted', removal, run, rfl⟩⟩
    · refine ⟨r, dropped, learner, enlisted, ?_⟩
      rwa [if_neg (by simpa using stays)]
    · refine ⟨r, dropped, learner, enlisted, ?_⟩
      rw [if_pos (by simp [goes])]
      exact bind_eq_ok.2 ⟨_, removal, bind_eq_ok.2 ⟨_, run, rfl⟩⟩

theorem deleteTeam_eq_ok {deleted : List LearnerId} : p.deleteTeam t = .ok (deleted, q) ↔
    ∃ team r, p.team? t = some team ∧ team.inLearners = [] ∧
      releaseMembers t team.learners p = .ok (deleted, r) ∧
        { r with teams := r.teams.erase t } = q := by
  simp only [deleteTeam, bind_eq_ok, getTeam_eq_ok]
  constructor
  · rintro ⟨team, found, run⟩
    split at run
    case isTrue => simp [bind_eq_ok] at run
    case isFalse root =>
      simp only [bind_eq_ok, pure_eq_ok, Prod.mk.injEq] at run
      obtain ⟨⟨_, r⟩, released, rfl, rfl⟩ := run
      exact ⟨team, r, found, by simpa using root, released, rfl⟩
  · rintro ⟨team, r, found, root, released, rfl⟩
    refine ⟨team, found, ?_⟩
    simp only [root, List.isEmpty_nil]
    exact bind_eq_ok.2 ⟨(deleted, r), released, rfl⟩

end TangledGraph.Population
