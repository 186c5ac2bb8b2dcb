import TangledGraph.Graph.Basic
import TangledGraph.Json.Decode

/-!
# Graphs as documents

The form in which teams, learners and counters are stored.
-/
namespace TangledGraph

open Json

def TeamId.toJson (t : TeamId) : Json := ofNat t.val

def TeamId.ofJson? (j : Json) : Option TeamId := (natural? j).map TeamId.mk

def LearnerId.toJson (l : LearnerId) : Json := ofNat l.val

def LearnerId.ofJson? (j : Json) : Option LearnerId := (natural? j).map LearnerId.mk

def ProgramId.toJson (p : ProgramId) : Json := ofNat p.val

def ProgramId.ofJson? (j : Json) : Option ProgramId := (natural? j).map ProgramId.mk

namespace Counters

def fieldNames : List String := ["next_team", "next_learner", "next_program"]

def toJson (c : Counters) : Json := object [
  ("next_team", ofNat c.team), ("next_learner", ofNat c.learner), ("next_program", ofNat c.program)]

def ofJson? (j : Json) : Option Counters := do
  let field ← record? fieldNames false j
  pure {
    team := ← required natural? (field "next_team")
    learner := ← required natural? (field "next_learner")
    program := ← required natural? (field "next_program") }

end Counters

namespace Code

def toJson : Code → Json
  | discrete n => object [("Discrete", Json.integer n)]
  | real xs => object [("Real", ofList Json.real xs)]

def ofJson? (j : Json) : Option Code := do
  match ← variant? j with
  | ("Discrete", value) => return discrete (← whole? value)
  | ("Real", values) => return real (← list? float? values)
  | _ => none

end Code

namespace Action

def toJson : Action → Json
  | atomic code => object [("Atomic", code.toJson)]
  | team t => object [("Team", t.toJson)]

def ofJson? (j : Json) : Option Action := do
  match ← variant? j with
  | ("Atomic", value) => return atomic (← Code.ofJson? value)
  | ("Team", value) => return team (← TeamId.ofJson? value)
  | _ => none

end Action

namespace Mode

def name : Mode → String
  | register => "Register"
  | input => "Input"

def ofName? : String → Option Mode
  | "Register" => some register
  | "Input" => some input
  | _ => none

end Mode

namespace Operation

def name : Operation → String
  | add => "Add"
  | sub => "Sub"
  | double => "Double"
  | half => "Half"
  | conditionalNegate => "ConditionalNegate"
  | cos => "Cos"
  | log => "Log"
  | exp => "Exp"
  | memoryRead => "MemoryRead"
  | memoryWrite => "MemoryWrite"

def ofName? : String → Option Operation
  | "Add" => some add
  | "Sub" => some sub
  | "Double" => some double
  | "Half" => some half
  | "ConditionalNegate" => some conditionalNegate
  | "Cos" => some cos
  | "Log" => some log
  | "Exp" => some exp
  | "MemoryRead" => some memoryRead
  | "MemoryWrite" => some memoryWrite
  | _ => none

end Operation

namespace Instruction

def fieldNames : List String := ["mode", "op", "dest", "src"]

def toJson (i : Instruction) : Json := object [
  ("mode", string i.mode.name), ("op", string i.op.name),
  ("dest", ofNat i.dest), ("src", ofNat i.src)]

def ofJson? (j : Json) : Option Instruction := do
  let field ← record? fieldNames false j
  pure {
    mode := ← required (fun j => (choice? j).bind Mode.ofName?) (field "mode")
    op := ← required (fun j => (choice? j).bind Operation.ofName?) (field "op")
    dest := ← required natural? (field "dest")
    src := ← required natural? (field "src") }

end Instruction

namespace Program

def fieldNames : List String := ["id", "instructions"]

def toJson (p : Program) : Json := object [
  ("id", p.id.toJson), ("instructions", ofList Instruction.toJson p.instructions)]

def ofJson? (j : Json) : Option Program := do
  let field ← record? fieldNames false j
  pure {
    id := ← required ProgramId.ofJson? (field "id")
    instructions := ← required (list? Instruction.ofJson?) (field "instructions") }

end Program

namespace Outcomes

def toJson (outcomes : Outcomes) : Json :=
  object (outcomes.toList.map fun (task, x) => (task, Json.real x))

/-- Of outcomes on one task the last counts. -/
def ofJson? : Json → Option Outcomes
  | object fields => fields.foldlM (fun outcomes (task, j) => do
      pure (outcomes.insert task (← float? j))) {}
  | _ => none

end Outcomes

namespace Team

def fieldNames : List String :=
  ["id", "learners", "outcomes", "fitness", "generation", "in_learners"]

def toJson (id : TeamId) (t : Team) : Json := object [
  ("id", id.toJson),
  ("learners", ofList LearnerId.toJson t.learners),
  ("outcomes", t.outcomes.toJson),
  ("fitness", ofOption Json.real t.fitness),
  ("generation", ofNat t.generation),
  ("in_learners", ofList LearnerId.toJson t.inLearners)]

def ofJson? (j : Json) : Option (TeamId × Team) := do
  let field ← record? fieldNames false j
  let id ← required TeamId.ofJson? (field "id")
  pure (id, {
    learners := ← required (list? LearnerId.ofJson?) (field "learners")
    outcomes := ← required Outcomes.ofJson? (field "outcomes")
    fitness := ← withDefault none (option? float?) (field "fitness")
    generation := ← required natural? (field "generation")
    inLearners := ← required (list? LearnerId.ofJson?) (field "in_learners") })

end Team

namespace Learner

def fieldNames : List String := ["id", "program", "action", "generation", "in_teams"]

def toJson (id : LearnerId) (l : Learner) : Json := object [
  ("id", id.toJson),
  ("program", l.program.toJson),
  ("action", l.action.toJson),
  ("generation", ofNat l.generation),
  ("in_teams", ofList TeamId.toJson l.inTeams)]

def ofJson? (j : Json) : Option (LearnerId × Learner) := do
  let field ← record? fieldNames false j
  let id ← required LearnerId.ofJson? (field "id")
  pure (id, {
    program := ← required Program.ofJson? (field "program")
    action := ← required Action.ofJson? (field "action")
    generation := ← required natural? (field "generation")
    inTeams := ← required (list? TeamId.ofJson?) (field "in_teams") })

end Learner

namespace Memory

def fieldNames : List String := ["rows", "cols", "cells"]

def toJson (m : Memory) : Json := object [
  ("rows", ofNat m.rows), ("cols", ofNat m.cols), ("cells", ofList Json.real m.cells.toList)]

/-- A matrix with the stored shape, whatever the number of stored cells. -/
def ofJson? (j : Json) : Option Memory := do
  let field ← record? fieldNames false j
  let rows ← required natural? (field "rows")
  let cols ← required natural? (field "cols")
  let cells ← required (list? float?) (field "cells")
  pure (ofCells rows cols cells.toArray)

end Memory

end TangledGraph
