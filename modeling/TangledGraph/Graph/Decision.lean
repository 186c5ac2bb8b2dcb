import TangledGraph.Graph.Edit

/-!
# Decisions

A decision walks from a team along the learners with the highest bids until one
of them has a code. What an agent keeps between decisions is its own: register
files and the bids of the current frame. Only the memory may be shared.
-/
namespace TangledGraph

/-- What an agent keeps between decisions. -/
structure Context where
  /-- The number of the current decision. -/
  frame : Nat := 0
  registerCount : Nat
  /-- Whether registers keep their contents between runs. -/
  persistent : Bool
  registers : Std.ExtTreeMap LearnerId (Array Float) := {}
  /-- The last bid of each learner and the frame that it belongs to. -/
  bids : Std.ExtTreeMap LearnerId (Nat × Float) := {}
  stream : Stream

namespace Context

def create (registerCount : Nat) (persistent : Bool) (seed : UInt64) : Context :=
  { registerCount, persistent, stream := Stream.ofSeed seed }

/-- Starts a decision; earlier bids no longer count. -/
def beginFrame (c : Context) : Context := { c with frame := c.frame + 1 }

/-- The bid of a learner in the current frame. -/
def cachedBid? (c : Context) (l : LearnerId) : Option Float :=
  match c.bids[l]? with
  | some (frame, bid) => if frame = c.frame then some bid else none
  | none => none

def storeBid (c : Context) (l : LearnerId) (bid : Float) : Context :=
  { c with bids := c.bids.insert l (c.frame, bid) }

def registers? (c : Context) (l : LearnerId) : Option (Array Float) := c.registers[l]?

/-- Forgets all registers and bids. -/
def reset (c : Context) : Context := { c with registers := {}, bids := {} }

/-- The registers that a run of a learner starts from. -/
def startRegisters (c : Context) (l : LearnerId) : Array Float :=
  let file := (c.registers? l).getD (Array.replicate c.registerCount 0.0)
  if c.persistent then file else Array.replicate file.size 0.0

end Context

/-- What a decision reads and changes: a context and the memory, if there is one. -/
structure Mind where
  context : Context
  memory : Option Memory

namespace Mind

/-- Runs a program on the registers of a learner. -/
def runProgram (m : Mind) (l : LearnerId) (program : Program) (input : Array Float) :
    Except Fault (Float × Mind) := do
  let machine : Machine := ⟨m.context.startRegisters l, m.memory⟩
  let ((value, machine), stream) ←
    (machine.execute program.instructions input).run m.context.stream
  let registers := m.context.registers.insert l machine.registers
  pure (value, ⟨{ m.context with registers, stream }, machine.memory⟩)

/-- The bid of a learner, computed at most once in a frame. -/
def bid (m : Mind) (l : LearnerId) (learner : Learner) (input : Array Float) :
    Except Fault (Float × Mind) := do
  match m.context.cachedBid? l with
  | some bid => pure (bid, m)
  | none =>
    let (bid, m) ← m.runProgram l learner.program input
    pure (bid, { m with context := m.context.storeBid l bid })

end Mind

/-- A walk through the graph: the teams on its path, and what it changed. -/
structure Walk where
  visited : List TeamId
  mind : Mind

/-- The outcome of a decision; an error leaves what was changed before it. -/
abbrev Decided := Except Fault (Except Error Code × Walk)

namespace Learner

/-- Whether a bid counts: the action is a code or a team not yet visited. -/
def isEligible (learner : Learner) (visited : List TeamId) : Bool :=
  match learner.target? with
  | none => true
  | some t => !visited.contains t

end Learner

/-- The best learner so far with its bid. -/
abbrev Leader := Option (Learner × Float)

/-- Whether a bid beats the best one so far; an equal bid does not. -/
def Leader.isBeatenBy (leader : Leader) (bid : Float) : Bool :=
  match leader with
  | none => true
  | some (_, best) => best < bid

namespace Population

/-- The first of the eligible learners with the greatest bid. -/
def winner (p : Population) (input : Array Float) (visited : List TeamId) :
    List LearnerId → Leader → Mind → Except Fault (Leader × Mind)
  | [], leader, mind => pure (leader, mind)
  | l :: rest, leader, mind => do
    let learner ← p.getLearner l
    if learner.isEligible visited then
      let (bid, mind) ← mind.bid l learner input
      let leader := if leader.isBeatenBy bid then some (learner, bid) else leader
      p.winner input visited rest leader mind
    else p.winner input visited rest leader mind

/-- Walks from a team to a code, at most `fuel` teams far. -/
def walk (p : Population) (input : Array Float) : Nat → TeamId → Team → Walk → Decided
  | 0, _, _, _ => throw .endless
  | fuel + 1, t, team, w => do
    if t ∈ w.visited then
      return (.error (.structuralCycle t w.visited), w)
    let visited := w.visited ++ [t]
    let (leader, mind) ← p.winner input visited team.learners none w.mind
    let w : Walk := ⟨visited, mind⟩
    match leader with
    | none => pure (.error (.structuralCycle t visited), w)
    | some (learner, _) =>
      match learner.action with
      | .atomic code => pure (.ok code, w)
      | .team target =>
        match p.team? target with
        | none => pure (.error (.unknownTeam target), w)
        | some next => p.walk input fuel target next w

/-- Decides from a team in the current frame. A walk visits no team twice, so
it never gets further than the number of teams. -/
def decideFrom (p : Population) (input : Array Float) (t : TeamId) (w : Walk) : Decided :=
  match p.team? t with
  | none => pure (.error (.unknownTeam t), w)
  | some team => p.walk input (p.teamCount + 1) t team w

/-- Follows an action to a code. -/
def follow (p : Population) (input : Array Float) (action : Action) (w : Walk) : Decided :=
  match action with
  | .atomic code => pure (.ok code, w)
  | .team t => p.decideFrom input t w

/-- One decision of a team, in a frame of its own. -/
def act (p : Population) (t : TeamId) (input : Array Float) (m : Mind) :
    Except Fault (Except Error Code × Mind) := do
  if p.containsTeam t then
    let (result, w) ← p.decideFrom input t ⟨[], { m with context := m.context.beginFrame }⟩
    pure (result, w.mind)
  else pure (.error (.unknownTeam t), m)

end Population

end TangledGraph
