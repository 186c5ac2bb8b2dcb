import TangledGraph.Graph.Audit

/-!
# Variation

How a team is changed at random: learners are taken off it, learners of a pool
are added, and some are replaced by changed copies. Learners that other teams
may share are never changed in place.
-/
namespace TangledGraph

/-- What variation changes: the graph and the counters of identities. -/
structure Stock where
  population : Population
  counters : Counters

namespace Stock

variable (s : Settings) (generation : Nat)

/-- Another action for a learner, if there is one: a code, or a team of the
pool that exists, is not the parent and is not the target already. -/
def drawAction (p : Population) (current : Action) (parent : TeamId) (pool : List TeamId)
    (forceAtomic : Bool) : Draw (Option Action) := do
  let atomic ← if forceAtomic then pure true else Draw.chance s.mutation.pActionAtomic
  let target ←
    if atomic then pure none
    else Draw.choose (pool.filter fun t =>
      t != parent && some t != current.target? && p.containsTeam t)
  match target with
  | some t => pure (some (.team t))
  | none =>
    match current with
    | .atomic code => return (← s.trainer.actions.sampleOther code).map .atomic
    | .team _ => return some (.atomic (← s.trainer.actions.sample))

/-- Gives a learner another action; tells whether there was one. -/
def varyAction (stock : Stock) (l : LearnerId) (parent : TeamId) (pool : List TeamId)
    (forceAtomic : Bool) : Draw (Bool × Stock) := do
  let current := (← stock.population.getLearner l).action
  match ← drawAction s stock.population current parent pool forceAtomic with
  | none => pure (false, stock)
  | some action =>
    if action == current then pure (false, stock)
    else return (true, { stock with population := ← stock.population.setAction l action })

/-- Gives a learner another program. -/
def varyProgramOf (stock : Stock) (l : LearnerId) : Draw Stock := do
  let learner ← stock.population.getLearner l
  let (program, counters) ← s.mutation.varyProgram s.program learner.program stock.counters
  pure ⟨stock.population.setLearner l { learner with program }, counters⟩

/-- A round on a learner, which ends the variation if anything changed. -/
def learnerRound (l : LearnerId) (parent : TeamId) (pool : List TeamId) (forceAtomic : Bool)
    (stock : Stock) : Draw (Stock ⊕ Stock) := do
  let program ← Draw.chance s.mutation.pProgramMutate
  let stock ← if program then stock.varyProgramOf s l else pure stock
  let (action, stock) ←
    if ← Draw.chance s.mutation.pActionMutate then stock.varyAction s l parent pool forceAtomic
    else pure (false, stock)
  pure (if program || action then .inr stock else .inl stock)

/-- Varies the program and the action of a learner until one of them changed.
The parent is the team that the learner is about to join. -/
def varyLearner (stock : Stock) (l : LearnerId) (parent : TeamId) (pool : List TeamId)
    (forceAtomic : Bool) : Draw Stock :=
  Draw.iterate (learnerRound s l parent pool forceAtomic) Draw.roundLimit stock

/-- The learners of a team that may be taken off: all, but not the only atomic
one. -/
def removable (p : Population) (t : TeamId) : Except Fault (List LearnerId) := do
  let members := (← p.getTeam t).learners
  let soleAtomic := (← p.atomicCount t) = 1
  members.filterM fun l => do
    pure (!(soleAtomic && (← p.getLearner l).isAtomic))

/-- Takes learners off a team, each less likely than the one before, but never
below two. -/
def deleteLearners (t : TeamId) : Nat → Float → Population → Draw Population
  | 0, _, _ => throw .endless
  | fuel + 1, probability, p => do
    if !(← Draw.chance probability) then return p
    if (← p.getTeam t).learners.length ≤ 2 then return p
    match ← Draw.choose (← removable p t) with
    | none => pure p
    | some victim =>
      let p ← p.dropLearner t victim
      deleteLearners t fuel (probability * s.mutation.pLearnerDelete) p

/-- The learners of a pool that may join a team: those that exist, are not on
it and do not lead to it. -/
def recruits (p : Population) (t : TeamId) (members pool : List LearnerId) : List LearnerId :=
  pool.filter fun l =>
    !members.contains l && (p.learner? l).any fun learner => learner.target? != some t

/-- Adds learners of a pool to a team, each less likely than the one before. -/
def addLearners (t : TeamId) (pool : List LearnerId) : Nat → Float → Population → Draw Population
  | 0, _, _ => throw .endless
  | fuel + 1, probability, p => do
    if !(← Draw.chance probability) then return p
    let members := (← p.getTeam t).learners
    if 0 < s.mutation.maxTeamSize && s.mutation.maxTeamSize ≤ members.length then return p
    match ← Draw.choose (recruits p t members pool) with
    | none => pure p
    | some recruit =>
      let p ← p.addLearner t recruit
      addLearners t pool fuel (probability * s.mutation.pLearnerAdd) p

/-- Replaces a learner of a team by a changed copy. The only atomic learner of
the team stays atomic. -/
def replaceLearner (t : TeamId) (pool : List TeamId) (stock : Stock) (member : LearnerId) :
    Draw Stock := do
  let p := stock.population
  let soleAtomic := (← p.atomicCount t) = 1
  let forceAtomic := soleAtomic && (← p.getLearner member).isAtomic
  let p ← p.dropLearner t member
  let (copy, p, counters) ← p.cloneLearner stock.counters member generation
  let stock ← varyLearner s ⟨p, counters⟩ copy t pool forceAtomic
  return { stock with population := ← stock.population.addLearner t copy }

/-- Replaces each of the learners by chance. -/
def replaceLearners (t : TeamId) (pool : List TeamId) : List LearnerId → Stock → Draw Stock
  | [], stock => pure stock
  | l :: rest, stock => do
    if ← Draw.chance s.mutation.pLearnerMutate then
      let stock ← replaceLearner s generation t pool stock l
      replaceLearners t pool rest stock
    else replaceLearners t pool rest stock

/-- One pass over a team: deletion, addition, replacement. Each loop stops for
want of learners at the latest. -/
def teamPass (t : TeamId) (learnerPool : List LearnerId) (teamPool : List TeamId)
    (stock : Stock) : Draw Stock := do
  let size := (← stock.population.getTeam t).learners.length
  let p ← deleteLearners s t (size + 1) s.mutation.pLearnerDelete stock.population
  let p ← addLearners s t learnerPool (learnerPool.length + 1) s.mutation.pLearnerAdd p
  let members := (← p.getTeam t).learners
  replaceLearners s generation t teamPool members { stock with population := p }

/-- A given number of passes over a team. -/
def teamPasses (t : TeamId) (learnerPool : List LearnerId) (teamPool : List TeamId) :
    Nat → Stock → Draw Stock
  | 0, stock => pure stock
  | n + 1, stock => do
    let stock ← teamPass s generation t learnerPool teamPool stock
    teamPasses t learnerPool teamPool n stock

/-- Varies a team, more than once in a rampant generation, and makes sure that
it is well formed. -/
def varyTeam (stock : Stock) (t : TeamId) (learnerPool : List LearnerId)
    (teamPool : List TeamId) : Draw Stock := do
  let repetitions ← s.mutation.repetitions generation
  let stock ← teamPasses s generation t learnerPool teamPool repetitions stock
  stock.population.assertWellFormed t
  pure stock

end Stock

end TangledGraph
