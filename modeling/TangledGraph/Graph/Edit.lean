import TangledGraph.Error
import TangledGraph.Graph.Basic

/-!
# Edits of the graph

Every change of an edge changes both of its ends. An edit that would break the
records is a fault, and nothing comes of it.
-/
namespace TangledGraph.Population

/-- Makes a team without learners. -/
def createTeam (p : Population) (c : Counters) (generation : Nat) :
    TeamId × Population × Counters :=
  let (t, c) := c.newTeam
  (t, p.setTeam t { generation }, c)

/-- Records at a team that the action of a learner leads to it. -/
def addReference (p : Population) (t : TeamId) (l : LearnerId) : Except Fault Population := do
  let team ← p.getTeam t
  pure (p.setTeam t { team with inLearners := team.inLearners ++ [l] })

/-- Takes back the record of `addReference`. -/
def dropReference (p : Population) (t : TeamId) (l : LearnerId) : Except Fault Population := do
  let team ← p.getTeam t
  if l ∈ team.inLearners then
    pure (p.setTeam t { team with inLearners := team.inLearners.erase l })
  else throw (.violation (.noReference l t))

/-- Records the reference of an action, if it is one. -/
def addTarget (p : Population) (action : Action) (l : LearnerId) : Except Fault Population :=
  match action.target? with
  | some t => p.addReference t l
  | none => pure p

def dropTarget (p : Population) (action : Action) (l : LearnerId) : Except Fault Population :=
  match action.target? with
  | some t => p.dropReference t l
  | none => pure p

/-- Makes a learner that is on no team. -/
def createLearner (p : Population) (c : Counters) (program : Program) (action : Action)
    (generation : Nat) : Except Fault (LearnerId × Population × Counters) := do
  let (l, c) := c.newLearner
  let p ← p.addTarget action l
  pure (l, p.setLearner l { program, action, generation }, c)

/-- Makes a learner with the instructions and the action of another. -/
def cloneLearner (p : Population) (c : Counters) (source : LearnerId) (generation : Nat) :
    Except Fault (LearnerId × Population × Counters) := do
  let learner ← p.getLearner source
  let (program, c) := learner.program.duplicate c
  p.createLearner c program learner.action generation

def addLearner (p : Population) (t : TeamId) (l : LearnerId) : Except Fault Population := do
  let team ← p.getTeam t
  if l ∈ team.learners then throw (.violation (.alreadyMember l t))
  let p := p.setTeam t { team with learners := team.learners ++ [l] }
  let learner ← p.getLearner l
  pure (p.setLearner l { learner with inTeams := learner.inTeams ++ [t] })

/-- Takes a learner off a team; it stays in the population even if it is on no
other team. -/
def dropLearner (p : Population) (t : TeamId) (l : LearnerId) : Except Fault Population := do
  let team ← p.getTeam t
  if l ∉ team.learners then throw (.violation (.notMember l t))
  let p := p.setTeam t { team with learners := team.learners.erase l }
  let learner ← p.getLearner l
  pure (p.setLearner l { learner with inTeams := learner.inTeams.filter (· != t) })

/-- Gives a learner another action and moves its reference. -/
def setAction (p : Population) (l : LearnerId) (action : Action) : Except Fault Population := do
  match action.target? with
  | some t =>
    if t ∈ (← p.getLearner l).inTeams then throw (.violation (.wouldTargetOwnTeam l t))
  | none => pure ()
  let learner ← p.getLearner l
  let p := p.setLearner l { learner with action }
  let p ← p.dropTarget learner.action l
  p.addTarget action l

/-- Deletes a learner that is on no team. -/
def deleteLearner (p : Population) (l : LearnerId) : Except Fault (Learner × Population) := do
  let learner ← p.getLearner l
  let p : Population := { p with learners := p.learners.erase l }
  if !learner.inTeams.isEmpty then throw (.violation (.removedWhileMember l learner.inTeams))
  return (learner, ← p.dropTarget learner.action l)

/-- Takes the listed learners off a team and deletes those that were on no
other; gives the deleted ones in order. -/
def releaseMembers (t : TeamId) : List LearnerId → Population →
    Except Fault (List LearnerId × Population)
  | [], p => pure ([], p)
  | l :: rest, p => do
    let p ← p.dropLearner t l
    if (← p.getLearner l).inTeams.isEmpty then
      let (_, p) ← p.deleteLearner l
      let (deleted, p) ← releaseMembers t rest p
      pure (l :: deleted, p)
    else releaseMembers t rest p

/-- Deletes a root with the learners that only it had. -/
def deleteTeam (p : Population) (t : TeamId) : Except Fault (List LearnerId × Population) := do
  let team ← p.getTeam t
  if !team.inLearners.isEmpty then throw (.violation (.deletedWhileTargeted t team.inLearners))
  let (deleted, p) ← releaseMembers t team.learners p
  pure (deleted, { p with teams := p.teams.erase t })

/-- The learners that are on no team. -/
def orphans (p : Population) : List LearnerId :=
  (p.learnerList.filter fun (_, learner) => learner.inTeams.isEmpty).map Prod.fst

/-- Deletes the learners that are on no team and gives them. -/
def pruneOrphans (p : Population) : Except Fault (List LearnerId × Population) := do
  let orphans := p.orphans
  let p ← orphans.foldlM (fun p l => Prod.snd <$> p.deleteLearner l) p
  pure (orphans, p)

/-- Records what a team achieved on a task, in place of an earlier outcome. -/
def setOutcome (p : Population) (t : TeamId) (task : String) (value : Float) :
    Except Error Population :=
  match p.team? t with
  | some team => pure (p.setTeam t { team with outcomes := team.outcomes.insert task value })
  | none => throw (.unknownTeam t)

def setFitness (p : Population) (t : TeamId) (fitness : Float) : Except Fault Population := do
  let team ← p.getTeam t
  pure (p.setTeam t { team with fitness := some fitness })

/-- Keeps of every team only the outcomes of the listed tasks. -/
def retainOutcomes (p : Population) (keep : List String) : Population :=
  { p with teams := p.teams.map fun _ team =>
      { team with outcomes := team.outcomes.filter fun task _ => keep.contains task } }

end TangledGraph.Population
