import TangledGraph.Code
import TangledGraph.Machine.Program

/-!
# Populations

A population is a graph of teams and learners. A team lists learners; a learner
has a program, which bids, and an action, which is a code or another team. Both
kinds of edges are recorded at both ends: the teams that list a learner, and
the learners whose action is a team.
-/
namespace TangledGraph

inductive Action
  | atomic (code : Code)
  | team (target : TeamId)
  deriving BEq, Repr

namespace Action

def isAtomic : Action → Bool
  | atomic _ => true
  | team _ => false

def target? : Action → Option TeamId
  | atomic _ => none
  | team t => some t

@[simp] theorem isAtomic_atomic (code : Code) : (atomic code).isAtomic = true := rfl
@[simp] theorem isAtomic_team (t : TeamId) : (team t).isAtomic = false := rfl
@[simp] theorem target?_atomic (code : Code) : (atomic code).target? = none := rfl
@[simp] theorem target?_team (t : TeamId) : (team t).target? = some t := rfl

end Action

structure Learner where
  program : Program
  action : Action
  /-- The generation that the learner was made in. -/
  generation : Nat
  /-- The teams that list the learner. -/
  inTeams : List TeamId := []
  deriving Repr

namespace Learner

def isAtomic (l : Learner) : Bool := l.action.isAtomic

def target? (l : Learner) : Option TeamId := l.action.target?

end Learner

/-- What a team achieved on each task. -/
abbrev Outcomes := Std.ExtTreeMap String Float

structure Team where
  learners : List LearnerId := []
  outcomes : Outcomes := {}
  fitness : Option Float := none
  /-- The generation that the team was made in. -/
  generation : Nat
  /-- The learners whose action is the team. -/
  inLearners : List LearnerId := []

namespace Team

/-- A root is a team that no action leads to. -/
def isRoot (t : Team) : Bool := t.inLearners.isEmpty

def outcome? (t : Team) (task : String) : Option Float := t.outcomes[task]?

end Team

structure Population where
  teams : Std.ExtTreeMap TeamId Team := {}
  learners : Std.ExtTreeMap LearnerId Learner := {}

namespace Population

def empty : Population := {}

def team? (p : Population) (t : TeamId) : Option Team := p.teams[t]?

def learner? (p : Population) (l : LearnerId) : Option Learner := p.learners[l]?

/-- A team that has to be there. -/
def getTeam (p : Population) (t : TeamId) : Except Fault Team :=
  match p.team? t with
  | some team => pure team
  | none => throw (.violation (.unknownTeam t))

/-- A learner that has to be there. -/
def getLearner (p : Population) (l : LearnerId) : Except Fault Learner :=
  match p.learner? l with
  | some learner => pure learner
  | none => throw (.violation (.unknownLearner l))

def setTeam (p : Population) (t : TeamId) (team : Team) : Population :=
  { p with teams := p.teams.insert t team }

def setLearner (p : Population) (l : LearnerId) (learner : Learner) : Population :=
  { p with learners := p.learners.insert l learner }

/-- The teams in the order of their identities. -/
def teamList (p : Population) : List (TeamId × Team) := p.teams.toList

/-- The learners in the order of their identities. -/
def learnerList (p : Population) : List (LearnerId × Learner) := p.learners.toList

def teamIds (p : Population) : List TeamId := p.teams.keys

def learnerIds (p : Population) : List LearnerId := p.learners.keys

def teamCount (p : Population) : Nat := p.teams.size

def learnerCount (p : Population) : Nat := p.learners.size

def containsTeam (p : Population) (t : TeamId) : Bool := p.teams.contains t

def containsLearner (p : Population) (l : LearnerId) : Bool := p.learners.contains l

/-- The roots in the order of their identities. -/
def roots (p : Population) : List TeamId :=
  (p.teamList.filter fun (_, team) => team.isRoot).map Prod.fst

def rootCount (p : Population) : Nat := p.roots.length

/-- The learners of a list whose action is a code; all have to be there. -/
def atomicAmong (p : Population) : List LearnerId → Except Fault Nat
  | [] => pure 0
  | l :: rest => do
    let learner ← p.getLearner l
    let others ← p.atomicAmong rest
    pure (if learner.isAtomic then others + 1 else others)

/-- How many learners of a team are atomic. -/
def atomicCount (p : Population) (t : TeamId) : Except Fault Nat := do
  p.atomicAmong (← p.getTeam t).learners

/-- The population of the given teams and learners; of equal identities the
last counts. -/
def ofLists (teams : List (TeamId × Team)) (learners : List (LearnerId × Learner)) : Population where
  teams := teams.foldl (fun m (t, team) => m.insert t team) {}
  learners := learners.foldl (fun m (l, learner) => m.insert l learner) {}

end Population

end TangledGraph
