import TangledGraph.Graph.Variation
import TangledGraph.Training.Agent

/-!
# Trainers

A trainer owns a population, hands out its roots as agents and takes in their
outcomes. It starts from teams of atomic learners with random programs.
-/
namespace TangledGraph

structure Trainer where
  settings : Settings
  population : Population
  counters : Counters
  /-- The roots as of the last generation. -/
  roots : List TeamId
  /-- The roots that selection has to keep. -/
  elites : List TeamId
  generation : Nat
  /-- The tasks with outcomes in this generation. -/
  tasks : TaskNames
  memory : Option Memory
  stream : Stream
  /-- What the seeds of agents are made from. -/
  seedBase : UInt64

/-- Which agents to hand out. -/
structure AgentQuery where
  /-- Whether the fittest come first. -/
  ranked : Bool := false
  /-- Roots with an outcome on every one of these tasks are left out. -/
  skipTasks : List String := []

namespace Trainer

/-- The codes of the learners of a new team: two different ones if there are
two, and then as many as are drawn. -/
def initialCodes (s : Settings) : Draw (List Code) := do
  let actions := s.trainer.actions
  let first ←
    if 2 ≤ actions.size then do
      let (i, j) ← Draw.distinctPair actions.size
      pure ([i, j].filterMap actions.get?)
    else do
      let a ← actions.sample
      let b ← actions.sample
      pure [a, b]
  let extra ← Draw.between 0 (s.mutation.initMaxTeamSize - 2)
  return first ++ (← (List.replicate extra ()).mapM fun _ => actions.sample)

/-- Gives a team a new learner for each code. -/
def addInitialLearners (s : Settings) (t : TeamId) : List Code → Stock → Draw Stock
  | [], stock => pure stock
  | code :: rest, ⟨p, counters⟩ => do
    let (program, counters) ← s.program.randomProgram counters
    let (l, p, counters) ← p.createLearner counters program (.atomic code) 0
    let p ← p.addLearner t l
    addInitialLearners s t rest ⟨p, counters⟩

/-- A given number of new teams. -/
def initialTeams (s : Settings) : Nat → Stock → Draw Stock
  | 0, stock => pure stock
  | n + 1, ⟨p, counters⟩ => do
    let (t, p, counters) := p.createTeam counters 0
    let stock ← addInitialLearners s t (← initialCodes s) ⟨p, counters⟩
    initialTeams s n stock

/-- The stream of a trainer in a generation: seeded if there is a seed, and the
given one otherwise. -/
def streamFor (seed : Option UInt64) (generation : Nat) (entropy : Stream) : Stream :=
  match seed with
  | some seed => Stream.ofSeed (seed + UInt64.ofNat generation)
  | none => entropy

/-- The seed that is configured, or else a word of the stream. -/
def drawSeedBase (seed : Option UInt64) (stream : Stream) : UInt64 × Stream :=
  match seed with
  | some seed => (seed, stream)
  | none => stream.next64

/-- The memory that the settings call for. -/
def initialMemory (s : Settings) : Option Memory :=
  if s.program.instructionSet.usesMemory then
    some (Memory.zeros s.program.memoryRows s.program.memoryCols)
  else none

/-- A trainer with valid settings that draws from a given stream. -/
def start (s : Settings) (stream : Stream) : Except Fault (Except Error Trainer) := do
  match s.validate with
  | .error problem => pure (.error (.configuration problem))
  | .ok () =>
    let (seedBase, stream) := drawSeedBase s.trainer.seed stream
    let (⟨p, counters⟩, stream) ← (initialTeams s s.trainer.teamPopSize ⟨.empty, {}⟩).run stream
    pure (.ok {
      settings := s, population := p, counters, roots := p.roots, elites := [], generation := 0,
      tasks := {}, memory := initialMemory s, stream, seedBase })

/-- A new trainer; the entropy counts only without a seed. -/
def create (s : Settings) (entropy : Stream) : Except Fault (Except Error Trainer) :=
  start s (streamFor s.trainer.seed 0 entropy)

/-- The seed of an agent: different for every team and every generation. -/
def agentSeed (t : Trainer) (team : TeamId) : UInt64 :=
  t.seedBase ^^^ (UInt64.ofNat t.generation <<< 32) ^^^ UInt64.ofNat team.val

def agentOf (t : Trainer) (team : TeamId) : Agent where
  team := team
  previous := ((t.population.team? team).map Team.outcomes).getD {}
  context := Context.create t.settings.program.registerCount
    t.settings.program.persistentRegisters (t.agentSeed team)

/-- The last fitness of a team, the least there is if it has none. -/
def fitnessOf (t : Trainer) (team : TeamId) : Float :=
  ((t.population.team? team).bind Team.fitness).getD (-infinity)

/-- The roots that a query asks for. -/
def wanted (t : Trainer) (query : AgentQuery) : List TeamId :=
  t.roots.filter fun id => (t.population.team? id).any fun team =>
    query.skipTasks.isEmpty || !query.skipTasks.all fun task => (team.outcome? task).isSome

/-- What a query asks for, the fittest first if it says so. -/
def selected (t : Trainer) (query : AgentQuery) : List TeamId :=
  if query.ranked then
    (t.wanted query).mergeSort fun a b => !(t.fitnessOf a < t.fitnessOf b)
  else t.wanted query

def agents (t : Trainer) (query : AgentQuery) : List Agent :=
  (t.selected query).map t.agentOf

def commons (t : Trainer) : Commons := ⟨t.tasks, t.memory⟩

def withCommons (t : Trainer) (c : Commons) : Trainer :=
  { t with tasks := c.tasks, memory := c.memory }

/-- Records an outcome of a team, in place of an earlier one on the task. -/
def reportOutcome (t : Trainer) (team : TeamId) (task : String) (value : Float) :
    Except Error Trainer := do
  let population ← t.population.setOutcome team task value
  pure { t with population, tasks := t.tasks.insert task }

/-- Records outcomes in order until one is refused. -/
def reportOutcomes (team : TeamId) : List (String × Float) → Trainer → Except Error Unit × Trainer
  | [], t => (.ok (), t)
  | (task, value) :: rest, t =>
    match t.reportOutcome team task value with
    | .ok t => reportOutcomes team rest t
    | .error e => (.error e, t)

/-- Takes in reports in order; what precedes a refused outcome stays. -/
def applyReports : List Report → Trainer → Except Error Unit × Trainer
  | [], t => (.ok (), t)
  | report :: rest, t =>
    match reportOutcomes report.team report.outcomes.toList t with
    | (.ok (), t) => applyReports rest t
    | (.error e, t) => (.error e, t)

/-- Lets the selected agents interact with an environment and takes in their
reports; gives the number of agents. -/
def evaluate (t : Trainer) (query : AgentQuery) (environment : Environment) :
    Except Fault (Except Error Nat × Trainer) := do
  let (result, c) ← evaluateAll t.population environment (t.agents query) t.commons
  let t := t.withCommons c
  match result with
  | .error e => pure (.error e, t)
  | .ok reports =>
    match applyReports reports t with
    | (.ok (), t) => pure (.ok reports.length, t)
    | (.error e, t) => pure (.error e, t)

end Trainer

end TangledGraph
