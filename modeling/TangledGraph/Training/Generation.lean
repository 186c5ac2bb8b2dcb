import TangledGraph.Scoring
import TangledGraph.Training.Trainer

/-!
# Generations

One generation scores the roots, deletes the worst of them, fills the
population up with varied copies of the others, and starts the next one.
-/
namespace TangledGraph

/-- What happened in a generation. -/
structure Summary where
  generation : Nat
  bestFitness : Float
  scored : Nat
  deletedTeams : Nat
  removedLearners : Nat
  createdTeams : Nat
  prunedLearners : Nat
  teams : Nat
  learners : Nat
  roots : Nat
  deriving Repr

/-- What selection leaves, with the numbers of what it deleted. -/
structure Selection where
  population : Population
  deletedTeams : Nat := 0
  removedLearners : Nat := 0

namespace Selection

/-- Deletes a team with the learners that only it had. -/
def delete (s : Selection) (t : TeamId) : Except Fault Selection := do
  let (learners, population) ← s.population.deleteTeam t
  pure ⟨population, s.deletedTeams + 1, s.removedLearners + learners.length⟩

/-- The scored teams, the fittest first, of equals the earlier. It is only scores that are
numbers that have such an order: with others among them, this is one of many. -/
def ranked (scores : List (TeamId × Float)) : List (TeamId × Float) :=
  scores.mergeSort fun a b => !(a.2 < b.2)

/-- How many of `n` teams a gap condemns. -/
def condemned (n : Nat) (gap : Float) : Nat := (Float.ofNat n * gap).toUInt64.toNat

/-- The teams to delete along an order of the scored ones: its last ones but for the
elites. -/
def doomed (order : List (TeamId × Float)) (gap : Float) (elites : List TeamId) : List TeamId :=
  let worst := order.drop (order.length - condemned order.length gap)
  (worst.map Prod.fst).filter fun t => !elites.contains t

/-- Deletes the teams that are doomed along an order. -/
def cull (order : List (TeamId × Float)) (p : Population) (gap : Float) (elites : List TeamId) :
    Except Fault Selection :=
  (doomed order gap elites).foldlM delete ⟨p, 0, 0⟩

def run (p : Population) (scores : List (TeamId × Float)) (gap : Float) (elites : List TeamId) :
    Except Fault Selection :=
  cull (ranked scores) p gap elites

end Selection

/-- Children made so far and the stock with them in it. -/
structure Brood where
  created : Nat
  stock : Stock

/-- Where reproduction takes from: parents for the children, and the learners
and the teams of the population before it. -/
structure Breeders where
  parents : List TeamId
  learnerPool : List LearnerId
  teamPool : List TeamId

namespace Breeders

/-- Elites are no targets, so that they stay roots. -/
def of (p : Population) (roots elites : List TeamId) : Breeders where
  parents := roots
  learnerPool := p.learnerIds
  teamPool := p.teamIds.filter fun t => !elites.contains t

end Breeders

namespace Brood

variable (s : Settings) (generation : Nat)

/-- Whether there are fewer teams, or roots, than there should be. -/
def isBelowQuota (p : Population) : Bool :=
  if s.trainer.rootBasedPopulation then p.rootCount < s.trainer.teamPopSize
  else p.teamCount < s.trainer.teamPopSize

/-- Makes a child: a new team with the learners of a parent, which is varied. -/
def birth (breeders : Breeders) (parent : TeamId) (stock : Stock) : Draw Stock := do
  let (child, p, counters) := stock.population.createTeam stock.counters generation
  let members := (← p.getTeam parent).learners
  let p : Population ← (members.foldlM (fun p l => p.addLearner child l) p : Except Fault _)
  Stock.varyTeam s generation ⟨p, counters⟩ child breeders.learnerPool breeders.teamPool

/-- One more child, if one is missing and there is a parent. -/
def round (breeders : Breeders) (b : Brood) : Draw (Brood ⊕ Brood) := do
  if isBelowQuota s b.stock.population then
    match ← Draw.choose breeders.parents with
    | none => pure (.inr b)
    | some parent =>
      return .inl ⟨b.created + 1, ← birth s generation breeders parent b.stock⟩
  else pure (.inr b)

/-- Makes children until none is missing. -/
def fill (breeders : Breeders) (stock : Stock) : Draw Brood :=
  Draw.iterate (round s generation breeders) Draw.roundLimit ⟨0, stock⟩

end Brood

namespace Trainer

/-- The tasks that count: the given ones, or all that were reported. -/
def effectiveTasks (t : Trainer) (tasks : List String) : List String :=
  if tasks.isEmpty then t.tasks.toList else tasks

/-- The outcome of a team on a task. -/
def outcomeOf (id : TeamId) (team : Team) (task : String) : Except Error Float :=
  match team.outcome? task with
  | some x => pure x
  | none => throw (.missingOutcome id task)

/-- The outcomes of a root on the tasks in order. -/
def outcomeRow (t : Trainer) (tasks : List String) (id : TeamId) :
    Except Error Scoring.Row :=
  match t.population.team? id with
  | some team => tasks.mapM (outcomeOf id team)
  | none => throw (.unknownTeam id)

/-- The outcomes of all roots on the tasks that count. -/
def outcomeMatrix (t : Trainer) (tasks : List String) : Except Error Scoring.Matrix := do
  let tasks := t.effectiveTasks tasks
  if tasks.isEmpty then throw (.configuration .noTasks)
  t.roots.mapM (t.outcomeRow tasks)

def setFitnesses (p : Population) (scores : List (TeamId × Float)) : Except Fault Population :=
  scores.foldlM (fun p (id, fitness) => p.setFitness id fitness) p

/-- The champions of the tasks, if they are to be kept. -/
def chooseElites (t : Trainer) (outcomes : Scoring.Matrix) : Except Fault (List TeamId) :=
  if t.settings.trainer.elitist then do
    return (← Scoring.ifFull outcomes Scoring.elites).filterMap fun i => t.roots[i]?
  else pure []

/-- Deletes the learners on no team and starts the next generation; gives the
number of those learners. -/
def nextGeneration (t : Trainer) : Except Fault (Nat × Trainer) := do
  let (orphans, p) ← t.population.pruneOrphans
  let population := p.retainOutcomes t.settings.trainer.retainedTasks
  pure (orphans.length, { t with
    population, roots := population.roots, tasks := {}, generation := t.generation + 1 })

/-- A generation for the given outcomes of the roots. -/
def advance (t : Trainer) (outcomes : Scoring.Matrix) (mode : Scoring.Mode) :
    Draw (Summary × Trainer) := do
  let fitness ← Scoring.score mode outcomes
  let scores := t.roots.zip fitness
  let p ← setFitnesses t.population scores
  let elites ← t.chooseElites outcomes
  let selection ← Selection.run p scores t.settings.trainer.gap elites
  let p := selection.population
  let survivors := t.roots.filter p.containsTeam
  let brood ← Brood.fill t.settings t.generation (Breeders.of p survivors elites) ⟨p, t.counters⟩
  let (pruned, next) ← nextGeneration { t with
    population := brood.stock.population, counters := brood.stock.counters, elites }
  pure ({
    generation := t.generation
    bestFitness := fitness.foldl greater (-infinity)
    scored := t.roots.length
    deletedTeams := selection.deletedTeams
    removedLearners := selection.removedLearners
    createdTeams := brood.created
    prunedLearners := pruned
    teams := next.population.teamCount
    learners := next.population.learnerCount
    roots := next.roots.length }, next)

/-- Scores, selects, reproduces and goes on to the next generation. Without
tasks all reported ones count. An error changes nothing. -/
def evolve (t : Trainer) (tasks : List String) (mode : Scoring.Mode) :
    Except Fault (Except Error Summary × Trainer) := do
  match t.outcomeMatrix tasks with
  | .error e => pure (.error e, t)
  | .ok outcomes =>
    let ((summary, t), stream) ← (t.advance outcomes mode).run t.stream
    pure (.ok summary, { t with stream })

end Trainer

/-- What is shown of a run while it goes on. -/
inductive Progress
  | started (generation : Nat)
  | evaluated (generation agents : Nat)
  | completed (summary : Summary)
  deriving Repr

/-- What came of a run: its progress, and the summaries or an error. -/
structure RunResult where
  progress : List Progress
  result : Except Error (List Summary)
  trainer : Trainer

namespace Trainer

/-- Evaluates and evolves a number of times, until an error. -/
def run (query : AgentQuery) (tasks : List String) (mode : Scoring.Mode)
    (environment : Environment) : Nat → Trainer → Except Fault RunResult
  | 0, t => pure ⟨[], .ok [], t⟩
  | n + 1, t => do
    let started := Progress.started t.generation
    let (evaluated, t) ← t.evaluate query environment
    match evaluated with
    | .error e => pure ⟨[started], .error e, t⟩
    | .ok agents =>
      let evaluated := Progress.evaluated t.generation agents
      let (evolved, t) ← t.evolve tasks mode
      match evolved with
      | .error e => pure ⟨[started, evaluated], .error e, t⟩
      | .ok summary =>
        let rest ← run query tasks mode environment n t
        pure { rest with
          progress := [started, evaluated, .completed summary] ++ rest.progress
          result := rest.result.map (summary :: ·) }

end Trainer

end TangledGraph
