import TangledGraph.Random.Draw

/-!
# Action codes

A code is what a decision ends in: a whole number, or a list of floats. The set
of codes that a population may use is fixed once and all of one kind.
-/
namespace TangledGraph

/-- The outcome of a decision. Two codes are the same if they are of one kind
and equal number by number, as floats compare. -/
inductive Code
  | discrete (value : Int)
  | real (values : List Float)
  deriving BEq, Repr

namespace Code

def discrete? : Code → Option Int
  | discrete n => some n
  | real _ => none

end Code

/-- The codes of a population. -/
inductive CodeSet
  | discrete (values : List Int)
  | real (values : List (List Float))
  deriving BEq, Repr

namespace CodeSet

def toList : CodeSet → List Code
  | discrete values => values.map .discrete
  | real values => values.map .real

def size (s : CodeSet) : Nat := s.toList.length

def get? (s : CodeSet) (i : Nat) : Option Code := s.toList[i]?

@[simp] theorem size_discrete (values : List Int) : (discrete values).size = values.length := by
  simp [size, toList]

@[simp] theorem size_real (values : List (List Float)) : (real values).size = values.length := by
  simp [size, toList]

/-- A code of the set. -/
def sample (s : CodeSet) : Draw Code := do
  match s.get? (← Draw.below64 s.size) with
  | some code => pure code
  | none => throw .outOfRange

/-- A code of the set other than `current`, if there is one. -/
def sampleOther (s : CodeSet) (current : Code) : Draw (Option Code) :=
  Draw.choose (s.toList.filter (· != current))

end CodeSet

end TangledGraph
