import TangledGraph.Training.Generation

/-!
# The task of the largest input

A small environment to train on: the agent sees a few numbers and should answer
with the index of the largest one. Its outcome is the fraction of right answers.
-/
namespace TangledGraph.Largest

/-- The name of the task. -/
def task : String := "largest"

/-- How many numbers an agent sees at a time. -/
def width : Nat := 4

/-- How many answers make an outcome. -/
def episodes : Nat := 32

/-- The index of the largest number: the first of equal ones, and zero if none
exceeds minus infinity. -/
def index (input : List Float) : Nat :=
  (input.zipIdx.foldl (fun (best : Nat × Float) (x, i) => if best.2 < x then (i, x) else best)
    (0, -infinity)).1

def isRight (input : List Float) (answer : Code) : Bool := answer == .discrete (index input)

/-- Asks for the answers to the inputs, counts the right ones and rewards them. -/
def ask (reward : Nat → Interaction) : List (List Float) → Nat → Interaction
  | [], right => reward right
  | input :: rest, right => .actOr input.toArray fun answer =>
      ask reward rest (if isRight input answer then right + 1 else right)

/-- The environment with the given inputs. -/
def environment (inputs : List (List Float)) : Environment := fun _ =>
  let reward := fun right =>
    .reward task (Float.ofNat right / Float.ofNat inputs.length) (.finish (.ok ()))
  ask reward inputs 0

/-- Random inputs for one evaluation. -/
def drawInputs : Draw (List (List Float)) :=
  (List.replicate episodes ()).mapM fun _ => (List.replicate width ()).mapM fun _ => Draw.symmetric

/-- The settings that fit the task. -/
def settings (s : Settings) : Settings := { s with
  trainer := { s.trainer with
    teamPopSize := 60
    seed := some 7
    actions := .discrete ((List.range width).map Int.ofNat) }
  program := { s.program with inputSize := width } }

end TangledGraph.Largest
