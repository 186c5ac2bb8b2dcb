import Std.Data.ExtTreeSet
import TangledGraph.Graph.Decision

/-!
# Agents

An agent is a root team that is tried out in an environment. It acts on inputs
and collects outcomes; all agents share the memory and the names of the tasks
for which outcomes were reported. An environment is an interaction: what to ask
of the agent next, given its answers so far.
-/
namespace TangledGraph

/-- Names of tasks, in the order of their characters. -/
abbrev TaskNames := Std.ExtTreeSet String

def TaskNames.ofNames (names : List String) : TaskNames :=
  names.foldl (fun tasks name => tasks.insert name) {}

/-- What agents share. -/
structure Commons where
  tasks : TaskNames
  memory : Option Memory

/-- The outcomes that an agent collected. -/
structure Report where
  team : TeamId
  outcomes : Outcomes

structure Agent where
  team : TeamId
  /-- The outcomes that the team had before. -/
  previous : Outcomes
  reported : Outcomes := {}
  context : Context

namespace Agent

/-- The decision of the agent on an input. -/
def act (a : Agent) (p : Population) (input : Array Float) (c : Commons) :
    Except Fault (Except Error Code × Agent × Commons) := do
  let (result, mind) ← p.act a.team input ⟨a.context, c.memory⟩
  pure (result, { a with context := mind.context }, { c with memory := mind.memory })

/-- Records an outcome, in place of an earlier one on the task. -/
def reward (a : Agent) (task : String) (value : Float) (c : Commons) : Agent × Commons :=
  ({ a with reported := a.reported.insert task value }, { c with tasks := c.tasks.insert task })

/-- Whether an outcome on a task is known, from now or from before. -/
def isTaskDone (a : Agent) (task : String) : Bool :=
  a.reported.contains task || a.previous.contains task

/-- Forgets registers and bids, as between episodes. -/
def reset (a : Agent) : Agent := { a with context := a.context.reset }

def report (a : Agent) : Report := ⟨a.team, a.reported⟩

end Agent

/-- What an environment does with an agent. -/
inductive Interaction
  | finish (result : Except Error Unit)
  | act (input : Array Float) (next : Except Error Code → Interaction)
  | reward (task : String) (value : Float) (next : Interaction)
  | taskDone (task : String) (next : Bool → Interaction)
  | reset (next : Interaction)
  /-- Looks at what the agent keeps. -/
  | inspect (next : Context → Interaction)

namespace Interaction

/-- Goes on with a code, and ends with an error. -/
def actOr (input : Array Float) (next : Code → Interaction) : Interaction :=
  act input fun
    | .ok code => next code
    | .error e => finish (.error e)

def run (p : Population) : Interaction → Agent → Commons →
    Except Fault (Except Error Unit × Agent × Commons)
  | finish result, a, c => pure (result, a, c)
  | act input next, a, c => do
    let (result, a, c) ← a.act p input c
    (next result).run p a c
  | reward task value next, a, c =>
    let (a, c) := a.reward task value c
    next.run p a c
  | taskDone task next, a, c => (next (a.isTaskDone task)).run p a c
  | reset next, a, c => next.run p a.reset c
  | inspect next, a, c => (next a.context).run p a c

end Interaction

/-- An environment, which may go by the identity of the team. -/
abbrev Environment := TeamId → Interaction

/-- Lets the agents interact one after another, until one ends with an error. -/
def evaluateAll (p : Population) (environment : Environment) :
    List Agent → Commons → Except Fault (Except Error (List Report) × Commons)
  | [], c => pure (.ok [], c)
  | a :: rest, c => do
    let (result, a, c) ← (environment a.team).run p a c
    match result with
    | .error e => pure (.error e, c)
    | .ok () =>
      let (reports, c) ← evaluateAll p environment rest c
      pure (reports.map (a.report :: ·), c)

end TangledGraph
