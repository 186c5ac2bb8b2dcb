import TangledGraph.Identity

/-!
# Faults

A fault stops a computation for good: nothing is known about the state it was
working on. Faults are the ways in which a caller breaks a promise (a graph
edit that cannot be made, a draw from an empty range, an index outside its
list, a set of codes without codes) and the one way in which a run can fail to
end. Errors that leave a usable state behind are a different type.
-/
namespace TangledGraph

/-- A rule for a single team that the team breaks. -/
inductive TeamProblem
  | tooFewLearners (team : TeamId) (count : Nat)
  | noAtomicLearner (team : TeamId)
  | repeatedLearner (team : TeamId)
  | ownTarget (learner : LearnerId) (team : TeamId)
  deriving DecidableEq, Repr

def TeamProblem.message : TeamProblem → String
  | tooFewLearners t n => s!"{t.label} has {n} learners"
  | noAtomicLearner t => s!"{t.label} has no atomic learner"
  | repeatedLearner t => s!"{t.label} lists a learner twice"
  | ownTarget l t => s!"{l.label} points at its own team {t.label}"

/-- A graph edit that cannot be made. -/
inductive Violation
  | malformedTeam (problem : TeamProblem)
  | unknownTeam (team : TeamId)
  | unknownLearner (learner : LearnerId)
  | alreadyMember (learner : LearnerId) (team : TeamId)
  | notMember (learner : LearnerId) (team : TeamId)
  | wouldTargetOwnTeam (learner : LearnerId) (team : TeamId)
  | removedWhileMember (learner : LearnerId) (teams : List TeamId)
  | deletedWhileTargeted (team : TeamId) (learners : List LearnerId)
  | noReference (learner : LearnerId) (team : TeamId)
  deriving DecidableEq, Repr

/-- Identities in square brackets, each with the name of its kind. -/
def listing (kind : String) (ids : List Nat) : String :=
  "[" ++ ", ".intercalate (ids.map fun n => s!"{kind}({n})") ++ "]"

def teamListing (ts : List TeamId) : String := listing "TeamId" (ts.map TeamId.val)

def learnerListing (ls : List LearnerId) : String := listing "LearnerId" (ls.map LearnerId.val)

def Violation.message (v : Violation) : String :=
  "Invariant violated: " ++ match v with
  | malformedTeam p => p.message
  | unknownTeam t => s!"unknown {t.label}"
  | unknownLearner l => s!"unknown {l.label}"
  | alreadyMember l t => s!"{l.label} is already on {t.label}"
  | notMember l t => s!"{l.label} is not on {t.label}"
  | wouldTargetOwnTeam l t => s!"{l.label} would point at its own team {t.label}"
  | removedWhileMember l ts => s!"{l.label} removed while on {teamListing ts}"
  | deletedWhileTargeted t ls => s!"{t.label} deleted while referenced by {learnerListing ls}"
  | noReference l t => s!"{l.label} holds no reference on {t.label}"

/-- Why a computation stopped for good. -/
inductive Fault
  | violation (v : Violation)
  /-- A number was to be drawn from a range without numbers. -/
  | emptyRange
  | outOfRange
  /-- Settings name the kind of a set of codes where the set should be. -/
  | bareCodes
  /-- A loop that ends only by chance did not end. -/
  | endless
  deriving DecidableEq, Repr

/-- What a fault says; only a broken graph rule says anything. -/
def Fault.message? : Fault → Option String
  | violation v => some v.message
  | emptyRange | outOfRange | bareCodes | endless => none

end TangledGraph
