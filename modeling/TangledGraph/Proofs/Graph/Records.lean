import TangledGraph.Proofs.Graph.Progress

/-!
# What edits do to the records

An outline leaves out outcomes, fitness and generations. Here is what an edit makes
of every record as a whole: of each team and each learner, wherever it stands.
-/
namespace TangledGraph.Population

variable {p q : Population} {t : TeamId} {l : LearnerId} {action : Action}

theorem team?_resetTeam {team : Team} (found : p.team? t = some team) (f : Team → Team)
    (u : TeamId) :
    (p.setTeam t (f team)).team? u = (p.team? u).map fun team => if u = t then f team else team := by
  rw [team?_setTeam]
  by_cases same : u = t
  · simp [same, found]
  · simp [same]

theorem learner?_resetLearner {learner : Learner} (enlisted : p.learner? l = some learner)
    (f : Learner → Learner) (k : LearnerId) :
    (p.setLearner l (f learner)).learner? k =
      (p.learner? k).map fun learner => if k = l then f learner else learner := by
  rw [learner?_setLearner]
  by_cases same : k = l
  · simp [same, enlisted]
  · simp [same]

theorem addTarget_records (run : p.addTarget action l = .ok q) :
    (∀ u, q.team? u = (p.team? u).map fun team =>
      if action.target? = some u then { team with inLearners := team.inLearners ++ [l] }
      else team) ∧ q.learner? = p.learner? := by
  cases target : action.target? with
  | none =>
    obtain rfl := Except.ok.inj ((addTarget_of_none target l).symm.trans run)
    exact ⟨by simp, rfl⟩
  | some t =>
    obtain ⟨team, found, rfl⟩ := (addTarget_eq_ok target).1 run
    refine ⟨fun u => ?_, rfl⟩
    simp only [Option.some.injEq, eq_comm (a := t)]
    exact team?_resetTeam found (fun team => { team with inLearners := team.inLearners ++ [l] }) u

theorem dropTarget_records (run : p.dropTarget action l = .ok q) :
    (∀ u, q.team? u = (p.team? u).map fun team =>
      if action.target? = some u then { team with inLearners := team.inLearners.erase l }
      else team) ∧ q.learner? = p.learner? := by
  cases target : action.target? with
  | none =>
    obtain rfl := Except.ok.inj ((dropTarget_of_none target l).symm.trans run)
    exact ⟨by simp, rfl⟩
  | some t =>
    obtain ⟨team, found, -, rfl⟩ := (dropTarget_eq_ok target).1 run
    refine ⟨fun u => ?_, rfl⟩
    simp only [Option.some.injEq, eq_comm (a := t)]
    exact team?_resetTeam found
      (fun team => { team with inLearners := team.inLearners.erase l }) u

theorem setAction_records {learner : Learner} (enlisted : p.learner? l = some learner)
    (run : p.setAction l action = .ok q) :
    (∀ u, q.team? u = (p.team? u).map fun team => { team with
      inLearners :=
        (if learner.action.target? = some u then team.inLearners.erase l else team.inLearners) ++
          if action.target? = some u then [l] else [] }) ∧
      ∀ k, q.learner? k = if k = l then some { learner with action } else p.learner? k := by
  obtain ⟨learner', r, enlisted', -, dropped, added⟩ := setAction_eq_ok.1 run
  obtain rfl : learner = learner' := Option.some.inj (enlisted.symm.trans enlisted')
  obtain ⟨teams, learners⟩ := dropTarget_records dropped
  obtain ⟨teams', learners'⟩ := addTarget_records added
  refine ⟨fun u => ?_, fun k => ?_⟩
  · rw [teams', teams, team?_setLearner, Option.map_map]
    congr 1
    funext team
    simp only [Function.comp_apply]
    split_ifs <;> simp
  · rw [learners', learners, learner?_setLearner]

theorem dropLearner_records (run : p.dropLearner t l = .ok q) :
    (∀ u, q.team? u = (p.team? u).map fun team =>
      if u = t then { team with learners := team.learners.erase l } else team) ∧
      ∀ k, q.learner? k = (p.learner? k).map fun learner =>
        if k = l then { learner with inTeams := learner.inTeams.filter (· != t) } else learner := by
  obtain ⟨team, learner, found, -, enlisted, rfl⟩ := dropLearner_eq_ok.1 run
  refine ⟨?_, ?_⟩
  · exact team?_resetTeam found fun team => { team with learners := team.learners.erase l }
  · exact learner?_resetLearner enlisted fun learner =>
      { learner with inTeams := learner.inTeams.filter (· != t) }

/-- With exact records, a learner that goes is no reference of any team. -/
theorem deleteLearner_records (exact : p.outline.Exact) {learner : Learner}
    (run : p.deleteLearner l = .ok (learner, q)) :
    (∀ u, q.team? u = (p.team? u).map fun team =>
      { team with inLearners := team.inLearners.filter (· != l) }) ∧
      ∀ k, q.learner? k = if k = l then none else p.learner? k := by
  obtain ⟨enlisted, -, dropped⟩ := deleteLearner_eq_ok.1 run
  obtain ⟨teams, learners⟩ := dropTarget_records dropped
  refine ⟨fun u => ?_, fun k => (congrFun learners k).trans (learner?_eraseLearner p l k)⟩
  rw [teams u]
  refine Option.map_congr fun team (found : p.team? u = some team) => ?_
  have leads : l ∈ team.inLearners ↔ learner.action.target? = some u := by
    rw [← references_of_team? found, ← target?_of_learner? enlisted, target?_eq]
    exact exact.reference_iff
  split
  case isTrue =>
    have nodup : team.inLearners.Nodup :=
      references_of_team? found ▸ exact.nodup_references u
    rw [nodup.erase_eq_filter]
  case isFalse elsewhere =>
    have unlisted : ∀ k ∈ team.inLearners, (k != l) = true := by
      intro k hk
      exact bne_iff_ne.2 (ne_of_mem_of_not_mem hk (mt leads.1 elsewhere))
    rw [List.filter_eq_self.2 unlisted]

end TangledGraph.Population
