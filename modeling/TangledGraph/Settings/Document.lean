import TangledGraph.Json.Decode
import TangledGraph.Settings.Basic

/-!
# Settings as documents

The form in which settings are stored: one object per section with its fields
in order. Reading fills in the default of every field that is left out.
-/
namespace TangledGraph

open Json

def CodeSet.toJson : CodeSet → Json
  | .discrete values => object [("discrete", ofList Json.integer values)]
  | .real values => object [("real", ofList (ofList Json.real) values)]

def CodeSet.ofJson? (r : Reading) (j : Json) : Option CodeSet := do
  match ← variant? j with
  | ("discrete", values) => return .discrete (← list? r.whole values)
  | ("real", values) => return .real (← list? (list? r.float) values)
  | _ => none

def InstructionSet.name : InstructionSet → String
  | minimal => "minimal"
  | full => "full"
  | memory => "memory"

def InstructionSet.ofName? : String → Option InstructionSet
  | "minimal" => some minimal
  | "full" => some full
  | "memory" => some memory
  | _ => none

namespace TrainerSettings

def fieldNames : List String :=
  ["team_pop_size", "gap", "elitist", "root_based_population", "retained_tasks", "seed", "actions"]

def toJson (s : TrainerSettings) : Json := object [
  ("team_pop_size", ofNat s.teamPopSize),
  ("gap", real s.gap),
  ("elitist", bool s.elitist),
  ("root_based_population", bool s.rootBasedPopulation),
  ("retained_tasks", ofList string s.retainedTasks),
  ("seed", ofOption (fun n : UInt64 => ofNat n.toNat) s.seed),
  ("actions", s.actions.toJson)]

def ofJson? (r : Reading) (j : Json) : Option TrainerSettings := do
  let field ← r.record fieldNames j
  let default : TrainerSettings := {}
  pure {
    teamPopSize := ← withDefault default.teamPopSize r.natural (field "team_pop_size")
    gap := ← withDefault default.gap r.float (field "gap")
    elitist := ← withDefault default.elitist r.flag (field "elitist")
    rootBasedPopulation :=
      ← withDefault default.rootBasedPopulation r.flag (field "root_based_population")
    retainedTasks := ← withDefault default.retainedTasks (list? r.text) (field "retained_tasks")
    seed := ← withDefault default.seed
      (option? fun j => (r.natural j).map UInt64.ofNat) (field "seed")
    actions := ← withDefault default.actions (CodeSet.ofJson? r) (field "actions") }

end TrainerSettings

namespace ProgramSettings

def fieldNames : List String :=
  ["instruction_set", "register_count", "input_size", "init_max_program_size",
   "max_program_size", "persistent_registers", "memory_rows", "memory_cols"]

def toJson (s : ProgramSettings) : Json := object [
  ("instruction_set", string s.instructionSet.name),
  ("register_count", ofNat s.registerCount),
  ("input_size", ofNat s.inputSize),
  ("init_max_program_size", ofNat s.initMaxProgramSize),
  ("max_program_size", ofNat s.maxProgramSize),
  ("persistent_registers", bool s.persistentRegisters),
  ("memory_rows", ofNat s.memoryRows),
  ("memory_cols", ofNat s.memoryCols)]

def ofJson? (r : Reading) (j : Json) : Option ProgramSettings := do
  let field ← r.record fieldNames j
  let default : ProgramSettings := {}
  pure {
    instructionSet := ← withDefault default.instructionSet
      (fun j => (r.choice j).bind InstructionSet.ofName?) (field "instruction_set")
    registerCount := ← withDefault default.registerCount r.natural (field "register_count")
    inputSize := ← withDefault default.inputSize r.natural (field "input_size")
    initMaxProgramSize :=
      ← withDefault default.initMaxProgramSize r.natural (field "init_max_program_size")
    maxProgramSize := ← withDefault default.maxProgramSize r.natural (field "max_program_size")
    persistentRegisters :=
      ← withDefault default.persistentRegisters r.flag (field "persistent_registers")
    memoryRows := ← withDefault default.memoryRows r.natural (field "memory_rows")
    memoryCols := ← withDefault default.memoryCols r.natural (field "memory_cols") }

end ProgramSettings

namespace MutationSettings

def fieldNames : List String :=
  ["p_learner_delete", "p_learner_add", "p_learner_mutate", "p_program_mutate",
   "p_action_mutate", "p_action_atomic", "p_inst_delete", "p_inst_add", "p_inst_swap",
   "p_inst_mutate", "rampant_gen", "rampant_min", "rampant_max", "max_team_size",
   "init_max_team_size"]

def toJson (s : MutationSettings) : Json := object (
  s.probabilities.map (fun (name, p) => (name, real p)) ++ [
  ("rampant_gen", ofNat s.rampantGen),
  ("rampant_min", ofNat s.rampantMin),
  ("rampant_max", ofNat s.rampantMax),
  ("max_team_size", ofNat s.maxTeamSize),
  ("init_max_team_size", ofNat s.initMaxTeamSize)])

def ofJson? (r : Reading) (j : Json) : Option MutationSettings := do
  let field ← r.record fieldNames j
  let default : MutationSettings := {}
  pure {
    pLearnerDelete := ← withDefault default.pLearnerDelete r.float (field "p_learner_delete")
    pLearnerAdd := ← withDefault default.pLearnerAdd r.float (field "p_learner_add")
    pLearnerMutate := ← withDefault default.pLearnerMutate r.float (field "p_learner_mutate")
    pProgramMutate := ← withDefault default.pProgramMutate r.float (field "p_program_mutate")
    pActionMutate := ← withDefault default.pActionMutate r.float (field "p_action_mutate")
    pActionAtomic := ← withDefault default.pActionAtomic r.float (field "p_action_atomic")
    pInstDelete := ← withDefault default.pInstDelete r.float (field "p_inst_delete")
    pInstAdd := ← withDefault default.pInstAdd r.float (field "p_inst_add")
    pInstSwap := ← withDefault default.pInstSwap r.float (field "p_inst_swap")
    pInstMutate := ← withDefault default.pInstMutate r.float (field "p_inst_mutate")
    rampantGen := ← withDefault default.rampantGen r.natural (field "rampant_gen")
    rampantMin := ← withDefault default.rampantMin r.natural (field "rampant_min")
    rampantMax := ← withDefault default.rampantMax r.natural (field "rampant_max")
    maxTeamSize := ← withDefault default.maxTeamSize r.natural (field "max_team_size")
    initMaxTeamSize :=
      ← withDefault default.initMaxTeamSize r.natural (field "init_max_team_size") }

end MutationSettings

namespace Settings

def sectionNames : List String := ["trainer", "program", "mutation"]

def toJson (s : Settings) : Json := object [
  ("trainer", s.trainer.toJson), ("program", s.program.toJson), ("mutation", s.mutation.toJson)]

def ofJson? (r : Reading) (j : Json) : Option Settings := do
  let field ← r.record sectionNames j
  pure {
    trainer := ← withDefault {} (TrainerSettings.ofJson? r) (field "trainer")
    program := ← withDefault {} (ProgramSettings.ofJson? r) (field "program")
    mutation := ← withDefault {} (MutationSettings.ofJson? r) (field "mutation") }

end Settings

end TangledGraph
