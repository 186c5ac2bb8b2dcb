import TangledGraph.Fault
import TangledGraph.Settings.Validation

/-!
# Errors

An error refuses one step and leaves a usable state behind. Each has the text
that is shown for it.
-/
namespace TangledGraph

/-- A record of an edge of the graph that its other end does not confirm. -/
inductive EdgeProblem
  | missingLearner (team : TeamId) (learner : LearnerId)
  | unconfirmedMember (team : TeamId) (learner : LearnerId)
  | staleReference (team : TeamId) (learner : LearnerId)
  | unconfirmedTeam (learner : LearnerId) (team : TeamId)
  | uncountedTarget (learner : LearnerId) (team : TeamId)
  deriving DecidableEq, Repr

def EdgeProblem.message : EdgeProblem → String
  | missingLearner t l => s!"{t.label} lists missing {l.label}"
  | unconfirmedMember t l => s!"{t.label} lists {l.label} but not vice versa"
  | staleReference t l => s!"{t.label} counts stale reference {l.label}"
  | unconfirmedTeam l t => s!"{l.label} claims membership of {t.label}"
  | uncountedTarget l t => s!"{l.label} points at uncounted {t.label}"

/-- Why a graph that was read is refused. -/
inductive GraphProblem
  | edges (problems : List EdgeProblem)
  | teams (problems : List TeamProblem)
  /-- The roots that were stored are not the teams that nothing targets. -/
  | roots (stored actual : List TeamId)
  deriving DecidableEq, Repr

/-- Identities in braces, as a set shows them. -/
def teamSetListing (ts : List TeamId) : String :=
  "\x7b" ++ ", ".intercalate (ts.map fun t => s!"TeamId({t.val})") ++ "\x7d"

def GraphProblem.message : GraphProblem → String
  | edges problems => "; ".intercalate (problems.map EdgeProblem.message)
  | teams problems => "; ".intercalate (problems.map TeamProblem.message)
  | roots stored actual =>
    "stored root set " ++ teamSetListing stored ++ " does not match graph roots "
      ++ teamSetListing actual

inductive Error
  | structuralCycle (team : TeamId) (visited : List TeamId)
  | missingOutcome (team : TeamId) (task : String)
  | unknownTeam (team : TeamId)
  | checkpoint (problem : GraphProblem)
  | configuration (problem : SettingsProblem)
  /-- A settings file or an override that cannot be read as settings. -/
  | unreadableSettings
  /-- A file that is not there or cannot be written. -/
  | file
  /-- A document that does not have the form it should. -/
  | document
  deriving Repr

def Error.message : Error → String
  | structuralCycle t visited =>
    s!"No valid action at team {t.label}: every path revisits " ++ teamListing visited
  | missingOutcome t task => s!"Team {t.label} has no outcome for task '{task}'"
  | unknownTeam t => s!"Unknown team: {t.label}"
  | checkpoint problem => "Checkpoint error: " ++ problem.message
  | configuration problem => "Configuration error: " ++ problem.message
  | unreadableSettings => "Config load error"
  | file => "IO error"
  | document => "Serde error"

end TangledGraph
