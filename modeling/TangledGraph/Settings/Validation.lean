import TangledGraph.Decimal.Layout
import TangledGraph.Settings.Basic

/-!
# Validation of settings

Settings are valid if every loop that they drive can end and every range that
they bound has an element. The first rule that is broken, in a fixed order, is
the one reported.
-/
namespace TangledGraph

/-- A rule that settings break, or a training step that cannot start. -/
inductive SettingsProblem
  | noTeams
  | noCodes
  | unevenCodes
  | notAProbability (part name : String) (value : Float)
  | noRegisters
  | noInputs
  | programSizes (init max : Nat)
  | emptyMemory
  | noLearnerMutation
  | noInstructionMutation
  | rampantRange (min max : Nat)
  | initialTeamSize
  | maximumTeamSize
  | singleCodeNeedsPrograms
  | noTasks
  | unwritableNumber
  deriving Repr

def SettingsProblem.message : SettingsProblem → String
  | noTeams => "Team population size must be positive"
  | noCodes => "Action set must contain at least one code"
  | unevenCodes => "Real action codes must share a non-zero width"
  | notAProbability part name value =>
    s!"{part}.{name} must be in [0, 1), got " ++ Decimal.plain value
  | noRegisters => "Register count must be positive"
  | noInputs => "Input size must be positive"
  | programSizes init max =>
    s!"Program sizes must satisfy 1 <= init ({init}) <= max ({max})"
  | emptyMemory => "Memory instruction set needs a non-empty memory matrix"
  | noLearnerMutation => "One of p_program_mutate or p_action_mutate must be positive"
  | noInstructionMutation => "p_inst_mutate must be positive"
  | rampantRange min max => s!"Rampant range must satisfy 1 <= min ({min}) <= max ({max})"
  | initialTeamSize => "Initial team size must allow at least 2 learners"
  | maximumTeamSize => "Maximum team size must be 0 (unbounded) or at least 2"
  | singleCodeNeedsPrograms =>
    "p_program_mutate must be positive when the action set has a single code"
  | noTasks => "evolve needs at least one task"
  | unwritableNumber => "Failed to serialize: out-of-range value for u64 type"

abbrev Checked := Except SettingsProblem Unit

/-- Refuses with a problem where a rule is broken. -/
def rejectIf (broken : Bool) (problem : SettingsProblem) : Checked :=
  if broken then throw problem else pure ()

/-- A probability lies from zero up to one, one excluded: it drives loops that
go on while a draw stays below it. -/
def isProbability (x : Float) : Bool := 0.0 ≤ x && x < 1.0

def checkProbability (part name : String) (value : Float) : Checked :=
  rejectIf (!isProbability value) (.notAProbability part name value)

namespace CodeSet

/-- Whether real codes share a width other than zero. -/
def isEven : CodeSet → Bool
  | discrete _ => true
  | real [] => true
  | real (first :: rest) => first.length != 0 && rest.all (·.length == first.length)

end CodeSet

def TrainerSettings.validate (s : TrainerSettings) : Checked := do
  rejectIf (s.teamPopSize == 0) .noTeams
  rejectIf (s.actions.size == 0) .noCodes
  rejectIf (!s.actions.isEven) .unevenCodes
  checkProbability "trainer" "gap" s.gap

def ProgramSettings.validate (s : ProgramSettings) : Checked := do
  rejectIf (s.registerCount == 0) .noRegisters
  rejectIf (s.inputSize == 0) .noInputs
  rejectIf (s.initMaxProgramSize == 0 || s.maxProgramSize < s.initMaxProgramSize)
    (.programSizes s.initMaxProgramSize s.maxProgramSize)
  rejectIf (s.instructionSet == .memory && (s.memoryRows == 0 || s.memoryCols == 0)) .emptyMemory

def MutationSettings.validate (s : MutationSettings) : Checked := do
  s.probabilities.forM fun (name, value) => checkProbability "mutation" name value
  rejectIf (s.pProgramMutate == 0.0 && s.pActionMutate == 0.0) .noLearnerMutation
  rejectIf (s.pInstMutate == 0.0) .noInstructionMutation
  rejectIf (0 < s.rampantGen && (s.rampantMin == 0 || s.rampantMax < s.rampantMin))
    (.rampantRange s.rampantMin s.rampantMax)
  rejectIf (s.initMaxTeamSize < 2) .initialTeamSize
  rejectIf (s.maxTeamSize != 0 && s.maxTeamSize < 2) .maximumTeamSize

/-- The sections in order, then the rule that ties two of them: a learner whose
program never changes needs a second code to change to. -/
def Settings.validate (s : Settings) : Checked := do
  s.trainer.validate
  s.program.validate
  s.mutation.validate
  rejectIf (s.mutation.pProgramMutate == 0.0 && s.trainer.actions.size < 2)
    .singleCodeNeedsPrograms

end TangledGraph
