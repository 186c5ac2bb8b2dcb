import TangledGraph.Code

/-!
# Settings

What a training run is configured by, in three sections, with the default of
each field.
-/
namespace TangledGraph

/-- The population and how it is selected. -/
structure TrainerSettings where
  /-- How many teams, or roots, reproduction fills the population up to. -/
  teamPopSize : Nat := 360
  /-- The fraction of the roots that selection deletes. -/
  gap : Float := 0.5
  /-- Whether the best root of every task is kept. -/
  elitist : Bool := true
  /-- Whether roots are counted instead of teams. -/
  rootBasedPopulation : Bool := true
  /-- The tasks whose outcomes outlive a generation. -/
  retainedTasks : List String := []
  seed : Option UInt64 := none
  actions : CodeSet := .discrete [0, 1]
  deriving Repr

/-- The operations that programs may use. -/
inductive InstructionSet
  | minimal
  | full
  | memory
  deriving DecidableEq, Repr

/-- The machine that programs run on, and their sizes. -/
structure ProgramSettings where
  instructionSet : InstructionSet := .minimal
  registerCount : Nat := 8
  /-- How many inputs a source index may name. -/
  inputSize : Nat := 64
  initMaxProgramSize : Nat := 10
  maxProgramSize : Nat := 96
  /-- Whether registers keep their contents between decisions. -/
  persistentRegisters : Bool := true
  memoryRows : Nat := 100
  memoryCols : Nat := 8
  deriving Repr

/-- The probabilities and limits of variation. -/
structure MutationSettings where
  pLearnerDelete : Float := 0.7
  pLearnerAdd : Float := 0.6
  pLearnerMutate : Float := 0.2
  pProgramMutate : Float := 0.1
  pActionMutate : Float := 0.1
  /-- How likely a new action is a code and not a team. -/
  pActionAtomic : Float := 0.95
  pInstDelete : Float := 0.5
  pInstAdd : Float := 0.5
  pInstSwap : Float := 0.5
  pInstMutate : Float := 0.9
  /-- Every so many generations the variation of teams repeats; never if zero. -/
  rampantGen : Nat := 0
  rampantMin : Nat := 1
  rampantMax : Nat := 1
  /-- No team grows beyond this; zero sets no limit. -/
  maxTeamSize : Nat := 0
  initMaxTeamSize : Nat := 5
  deriving Repr

structure Settings where
  trainer : TrainerSettings := {}
  program : ProgramSettings := {}
  mutation : MutationSettings := {}
  deriving Repr

namespace MutationSettings

/-- The probabilities with their names, in the order of the fields. -/
def probabilities (m : MutationSettings) : List (String × Float) :=
  [("p_learner_delete", m.pLearnerDelete), ("p_learner_add", m.pLearnerAdd),
   ("p_learner_mutate", m.pLearnerMutate), ("p_program_mutate", m.pProgramMutate),
   ("p_action_mutate", m.pActionMutate), ("p_action_atomic", m.pActionAtomic),
   ("p_inst_delete", m.pInstDelete), ("p_inst_add", m.pInstAdd),
   ("p_inst_swap", m.pInstSwap), ("p_inst_mutate", m.pInstMutate)]

/-- Whether the variation of teams repeats in a generation. -/
def isRampant (m : MutationSettings) (generation : Nat) : Bool :=
  0 < m.rampantGen && 0 < generation && generation % m.rampantGen == 0

/-- How often the variation of a team runs in a generation. -/
def repetitions (m : MutationSettings) (generation : Nat) : Draw Nat :=
  if m.isRampant generation then Draw.between m.rampantMin m.rampantMax else pure 1

end MutationSettings

end TangledGraph
