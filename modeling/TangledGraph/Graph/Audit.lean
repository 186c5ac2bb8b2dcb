import TangledGraph.Graph.Edit

/-!
# Audits of the graph

The records are sound if every edge is recorded at both ends; a team is well
formed if it has two different learners or more, one of them atomic, and none
that leads back to it. Both are checked and reported rule by rule.
-/
namespace TangledGraph.Population

/-- The rules that a team breaks. -/
def teamProblems (p : Population) (t : TeamId) : Except Fault (List TeamProblem) := do
  let members := (← p.getTeam t).learners
  let size := if members.length < 2 then [TeamProblem.tooFewLearners t members.length] else []
  let atomic := if (← p.atomicCount t) = 0 then [TeamProblem.noAtomicLearner t] else []
  let repeated :=
    if members.eraseDups.length = members.length then [] else [TeamProblem.repeatedLearner t]
  let own ← members.filterMapM fun l => do
    let learner ← p.getLearner l
    pure (if learner.target? = some t then some (TeamProblem.ownTarget l t) else none)
  pure (size ++ atomic ++ repeated ++ own)

/-- Stops at the first rule that a team breaks. -/
def assertWellFormed (p : Population) (t : TeamId) : Except Fault Unit := do
  match ← p.teamProblems t with
  | [] => pure ()
  | problem :: _ => throw (.violation (.malformedTeam problem))

/-- The records of a team that learners do not confirm. -/
def teamEdgeProblems (p : Population) (t : TeamId) (team : Team) : List EdgeProblem :=
  let members := team.learners.filterMap fun l =>
    match p.learner? l with
    | none => some (.missingLearner t l)
    | some learner => if t ∈ learner.inTeams then none else some (.unconfirmedMember t l)
  let references := team.inLearners.filterMap fun l =>
    if (p.learner? l).bind Learner.target? = some t then none else some (.staleReference t l)
  members ++ references

/-- The records of a learner that teams do not confirm. -/
def learnerEdgeProblems (p : Population) (l : LearnerId) (learner : Learner) : List EdgeProblem :=
  let teams := learner.inTeams.filterMap fun t =>
    if (p.team? t).any (l ∈ ·.learners) then none else some (.unconfirmedTeam l t)
  let target := learner.target?.toList.filterMap fun t =>
    if (p.team? t).any (l ∈ ·.inLearners) then none else some (.uncountedTarget l t)
  teams ++ target

/-- Every record that its other end does not confirm. -/
def audit (p : Population) : List EdgeProblem :=
  p.teamList.flatMap (fun (t, team) => p.teamEdgeProblems t team) ++
    p.learnerList.flatMap (fun (l, learner) => p.learnerEdgeProblems l learner)

/-- The rules that teams break, team by team. -/
def allTeamProblems (p : Population) : Except Fault (List TeamProblem) := do
  return (← p.teamIds.mapM p.teamProblems).flatten

/-- The population of stored teams and learners, refused if a record is not
confirmed or a team is not well formed. -/
def restore (teams : List (TeamId × Team)) (learners : List (LearnerId × Learner)) :
    Except Fault (Except GraphProblem Population) := do
  let p := ofLists teams learners
  match p.audit with
  | [] =>
    match ← p.allTeamProblems with
    | [] => pure (.ok p)
    | problems => pure (.error (.teams problems))
  | problems => pure (.error (.edges problems))

end TangledGraph.Population
