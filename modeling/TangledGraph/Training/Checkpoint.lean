import TangledGraph.Graph.Document
import TangledGraph.Json.Reader
import TangledGraph.Json.Writer
import TangledGraph.Settings.Document
import TangledGraph.Training.Generation

/-!
# Checkpoints

What is stored of a trainer, and how it is taken up again. The random stream is
not stored: a trainer that is taken up draws from the seed and the generation.
-/
namespace TangledGraph

open Json

structure Checkpoint where
  settings : Settings
  generation : Nat
  counters : Counters
  teams : List (TeamId × Team)
  learners : List (LearnerId × Learner)
  roots : List TeamId
  elites : List TeamId
  tasks : List String
  memory : Option Memory

namespace Checkpoint

def fieldNames : List String :=
  ["config", "generation", "ids", "teams", "learners", "roots", "elites", "tasks", "memory"]

def toJson (c : Checkpoint) : Json := object [
  ("config", c.settings.toJson),
  ("generation", ofNat c.generation),
  ("ids", c.counters.toJson),
  ("teams", ofList (fun (id, team) => team.toJson id) c.teams),
  ("learners", ofList (fun (id, learner) => learner.toJson id) c.learners),
  ("roots", ofList TeamId.toJson c.roots),
  ("elites", ofList TeamId.toJson c.elites),
  ("tasks", ofList string c.tasks),
  ("memory", ofOption Memory.toJson c.memory)]

def ofJson? (j : Json) : Option Checkpoint := do
  let field ← record? fieldNames false j
  pure {
    settings := ← required (Settings.ofJson? exactly) (field "config")
    generation := ← required natural? (field "generation")
    counters := ← required Counters.ofJson? (field "ids")
    teams := ← required (list? Team.ofJson?) (field "teams")
    learners := ← required (list? Learner.ofJson?) (field "learners")
    roots := ← required (list? TeamId.ofJson?) (field "roots")
    elites := ← required (list? TeamId.ofJson?) (field "elites")
    tasks := ← required (list? text?) (field "tasks")
    memory := ← withDefault none (option? Memory.ofJson?) (field "memory") }

/-- Identities in order, each once. -/
def teamSet (ts : List TeamId) : List TeamId :=
  (ts.foldl (fun (s : Std.ExtTreeMap TeamId Unit) t => s.insert t ()) {}).keys

/-- Takes a trainer up again, refused if the settings are not valid, the graph
is not sound or the roots are not the ones that were stored. -/
def resume (c : Checkpoint) (entropy : Stream) : Except Fault (Except Error Trainer) := do
  if let .error problem := c.settings.validate then
    return .error (.configuration problem)
  match ← Population.restore c.teams c.learners with
  | .error problem => pure (.error (.checkpoint problem))
  | .ok p =>
    let stored := teamSet c.roots
    let actual := p.roots
    if stored != actual then
      return .error (.checkpoint (.roots stored actual))
    let seed := c.settings.trainer.seed
    let (seedBase, stream) :=
      Trainer.drawSeedBase seed (Trainer.streamFor seed c.generation entropy)
    pure (.ok {
      settings := c.settings, population := p, counters := c.counters, roots := c.roots,
      elites := c.elites, generation := c.generation, tasks := TaskNames.ofNames c.tasks,
      memory := c.memory <|> Trainer.initialMemory c.settings, stream, seedBase })

end Checkpoint

namespace Trainer

def checkpoint (t : Trainer) : Checkpoint where
  settings := t.settings
  generation := t.generation
  counters := t.counters
  teams := t.population.teamList
  learners := t.population.learnerList
  roots := t.roots
  elites := t.elites
  tasks := t.tasks.toList
  memory := t.memory

/-- The document that a trainer is stored as, as it reads back. -/
def saved (t : Trainer) : Json := t.checkpoint.toJson.written

/-- Takes a trainer up again from the document it was stored as. -/
def load (document : Json) (entropy : Stream) : Except Fault (Except Error Trainer) :=
  match Checkpoint.ofJson? document with
  | some c => c.resume entropy
  | none => pure (.error .document)

/-- The text that a trainer is stored as. -/
def savedText (t : Trainer) : String := t.saved.render

def loadText (text : String) (entropy : Stream) : Except Fault (Except Error Trainer) :=
  match Json.parse text with
  | some document => load document entropy
  | none => pure (.error .document)

end Trainer

namespace Report

def fieldNames : List String := ["team", "outcomes"]

def toJson (r : Report) : Json := object [
  ("team", r.team.toJson), ("outcomes", r.outcomes.toJson)]

def ofJson? (j : Json) : Option Report := do
  let field ← record? fieldNames false j
  pure {
    team := ← required TeamId.ofJson? (field "team")
    outcomes := ← required Outcomes.ofJson? (field "outcomes") }

end Report

end TangledGraph
