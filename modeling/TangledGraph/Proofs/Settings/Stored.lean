import TangledGraph.Proofs.Json.Stored
import TangledGraph.Settings.Document

/-!
# Settings that are read back

Settings are stored with all their fields, so that no default is filled in.
They are read back if their numbers have the size of stored ones and their
floats are finite.
-/
namespace TangledGraph

open Json

namespace Json

@[simp] theorem exactly_natural : exactly.natural = natural? := rfl
@[simp] theorem exactly_whole : exactly.whole = whole? := rfl
@[simp] theorem exactly_float : exactly.float = float? := rfl
@[simp] theorem exactly_flag : exactly.flag = flag? := rfl
@[simp] theorem exactly_text : exactly.text = text? := rfl
@[simp] theorem exactly_choice : exactly.choice = choice? := rfl

/-- A reading finds the fields of a record by their names. -/
def Reading.Finds (r : Reading) (names : List String) (fields : List (String × Json)) : Prop :=
  r.record names (object fields) = some fun name => fields.lookup name

theorem exactly_finds {names : List String} {fields : List (String × Json)}
    (all : fields.map Prod.fst = names) (nodup : names.Nodup) : exactly.Finds names fields := by
  have record : record? names true (object fields) = _ := record?_object all nodup
  exact record

end Json

namespace CodeSet

/-- Whole numbers have the size of stored ones, or all numbers are finite. -/
def Fits : CodeSet → Prop
  | discrete values => ∀ n ∈ values, IsSignedWord n
  | real values => ∀ xs ∈ values, ∀ x ∈ xs, x.isFinite = true

theorem ofJson?_discrete {reading : Reading} {j : Json} {s : CodeSet} :
    CodeSet.ofJson? reading (object [("discrete", j)]) = some s ↔
      ∃ values, list? reading.whole j = some values ∧ discrete values = s := by
  simp [CodeSet.ofJson?, variant?, Option.bind_eq_some_iff]

theorem ofJson?_real {reading : Reading} {j : Json} {s : CodeSet} :
    CodeSet.ofJson? reading (object [("real", j)]) = some s ↔
      ∃ values, list? (list? reading.float) j = some values ∧ real values = s := by
  simp [CodeSet.ofJson?, variant?, Option.bind_eq_some_iff]

theorem returns : Returns CodeSet.toJson (CodeSet.ofJson? exactly) Fits := by
  intro s u
  cases s with
  | discrete values =>
    have document : (discrete values).toJson.written =
      object [("discrete", (ofList Json.integer values).written)] := rfl
    rw [document, ofJson?_discrete, exactly_whole]
    simp only [returns_integer.list.eq_some, and_assoc, exists_and_left, exists_eq_left', Fits]
  | real values =>
    have document : (real values).toJson.written =
      object [("real", (ofList (ofList Json.real) values).written)] := rfl
    rw [document, ofJson?_real, exactly_float]
    simp only [returns_real.list.list.eq_some, and_assoc, exists_and_left, exists_eq_left', Fits]

end CodeSet

theorem InstructionSet.returns : Returns (fun s => string (InstructionSet.name s))
    (fun j => (choice? j).bind InstructionSet.ofName?) fun _ => True := by
  intro s u
  cases s <;> simp [written, choice?, InstructionSet.name, InstructionSet.ofName?]

/-- A seed always has the size of a stored number. -/
theorem returns_seed : Returns (ofOption fun n : UInt64 => ofNat n.toNat)
    (option? fun j => (natural? j).map UInt64.ofNat) fun _ => True := by
  intro seed other
  have words := returns_ofNat.wrap UInt64.ofNat UInt64.toNat fun _ => UInt64.ofNat_toNat
  rw [(words.option fun _ => nofun).eq_some]
  constructor
  · rintro ⟨-, rfl⟩
    exact ⟨trivial, rfl⟩
  · rintro ⟨-, rfl⟩
    exact ⟨fun n _ => n.toNat_lt, rfl⟩

namespace TrainerSettings

structure Fits (s : TrainerSettings) : Prop where
  teamPopSize : IsWord s.teamPopSize
  gap : s.gap.isFinite = true
  actions : s.actions.Fits

/-- A record of the trainer, with a seed or without one. -/
theorem ofJson?_object {reading : Reading} {t g e r n a : Json} {d : Option Json}
    {s : TrainerSettings} {fields : List (String × Json)}
    (listed : [("team_pop_size", t), ("gap", g), ("elitist", e), ("root_based_population", r),
      ("retained_tasks", n)] ++ d.toList.map (("seed", ·)) ++ [("actions", a)] = fields)
    (found : reading.Finds fieldNames fields) :
    TrainerSettings.ofJson? reading (object fields) = some s ↔
      reading.natural t = some s.teamPopSize ∧ reading.float g = some s.gap ∧
        reading.flag e = some s.elitist ∧ reading.flag r = some s.rootBasedPopulation ∧
        list? reading.text n = some s.retainedTasks ∧
        withDefault none (option? fun j => (reading.natural j).map UInt64.ofNat) d =
          some s.seed ∧
        CodeSet.ofJson? reading a = some s.actions := by
  subst listed
  have record : reading.record fieldNames (object _) = _ := found
  rw [TrainerSettings.ofJson?, record]
  simp only [↓fields_eq_some, Option.pure_def, Option.some.injEq]
  cases d <;>
  · constructor
    · rintro ⟨_, rfl, _, size, _, gap, _, elitist, _, rooted, _, retained, _, seed, _, actions,
        rfl⟩
      exact ⟨size, gap, elitist, rooted, retained, seed, actions⟩
    · rintro ⟨size, gap, elitist, rooted, retained, seed, actions⟩
      exact ⟨_, rfl, _, size, _, gap, _, elitist, _, rooted, _, retained, _, seed, _, actions,
        rfl⟩

theorem returns : Returns TrainerSettings.toJson (TrainerSettings.ofJson? exactly) Fits := by
  intro s u
  have document : s.toJson.written = object ([("team_pop_size", (ofNat s.teamPopSize).written),
      ("gap", (Json.real s.gap).written), ("elitist", (bool s.elitist).written),
      ("root_based_population", (bool s.rootBasedPopulation).written),
      ("retained_tasks", (ofList string s.retainedTasks).written)] ++
      (some (ofOption (fun n : UInt64 => ofNat n.toNat) s.seed).written).toList.map
        (("seed", ·)) ++ [("actions", s.actions.toJson.written)]) := rfl
  have seeded : withDefault none (option? fun j => (natural? j).map UInt64.ofNat)
      (some (ofOption (fun n : UInt64 => ofNat n.toNat) s.seed).written) = some u.seed ↔
        True ∧ s.seed = u.seed := returns_seed.eq_some
  rw [document, ofJson?_object rfl (exactly_finds rfl (by decide))]
  simp only [exactly_natural, exactly_float, exactly_flag, exactly_text, seeded]
  rw [returns_ofNat.eq_some, returns_real.eq_some, returns_bool.eq_some, returns_bool.eq_some,
    returns_string.list.eq_some, CodeSet.returns.eq_some]
  obtain ⟨_, _, _, _, _, _, _⟩ := s
  obtain ⟨_, _, _, _, _, _, _⟩ := u
  simp only [mk.injEq]
  constructor
  · rintro ⟨⟨size, rfl⟩, ⟨gap, rfl⟩, ⟨-, rfl⟩, ⟨-, rfl⟩, ⟨-, rfl⟩, ⟨-, rfl⟩, actions, rfl⟩
    exact ⟨⟨size, gap, actions⟩, rfl, rfl, rfl, rfl, rfl, rfl, rfl⟩
  · rintro ⟨⟨size, gap, actions⟩, rfl, rfl, rfl, rfl, rfl, rfl, rfl⟩
    exact ⟨⟨size, rfl⟩, ⟨gap, rfl⟩, ⟨trivial, rfl⟩, ⟨trivial, rfl⟩, ⟨fun _ _ => trivial, rfl⟩,
      ⟨trivial, rfl⟩, actions, rfl⟩

end TrainerSettings

namespace ProgramSettings

structure Fits (s : ProgramSettings) : Prop where
  registerCount : IsWord s.registerCount
  inputSize : IsWord s.inputSize
  initMaxProgramSize : IsWord s.initMaxProgramSize
  maxProgramSize : IsWord s.maxProgramSize
  memoryRows : IsWord s.memoryRows
  memoryCols : IsWord s.memoryCols

instance (s : ProgramSettings) : Decidable s.Fits :=
  decidable_of_iff (_ ∧ _ ∧ _ ∧ _ ∧ _ ∧ _)
    ⟨fun ⟨a, b, c, d, e, f⟩ => ⟨a, b, c, d, e, f⟩, fun ⟨a, b, c, d, e, f⟩ => ⟨a, b, c, d, e, f⟩⟩

theorem ofJson?_object {reading : Reading} {i r n m x e w c : Json} {s : ProgramSettings}
    {fields : List (String × Json)}
    (listed : [("instruction_set", i), ("register_count", r), ("input_size", n),
      ("init_max_program_size", m), ("max_program_size", x), ("persistent_registers", e),
      ("memory_rows", w), ("memory_cols", c)] = fields)
    (found : reading.Finds fieldNames fields) :
    ProgramSettings.ofJson? reading (object fields) = some s ↔
      (reading.choice i).bind InstructionSet.ofName? = some s.instructionSet ∧
        reading.natural r = some s.registerCount ∧ reading.natural n = some s.inputSize ∧
        reading.natural m = some s.initMaxProgramSize ∧
        reading.natural x = some s.maxProgramSize ∧
        reading.flag e = some s.persistentRegisters ∧ reading.natural w = some s.memoryRows ∧
        reading.natural c = some s.memoryCols := by
  subst listed
  have record : reading.record fieldNames (object _) = _ := found
  rw [ProgramSettings.ofJson?, record]
  simp only [↓fields_eq_some, Option.pure_def, Option.some.injEq]
  constructor
  · rintro ⟨_, rfl, _, set, _, registers, _, inputs, _, initial, _, most, _, persistent, _, rows,
      _, cols, rfl⟩
    exact ⟨set, registers, inputs, initial, most, persistent, rows, cols⟩
  · rintro ⟨set, registers, inputs, initial, most, persistent, rows, cols⟩
    exact ⟨_, rfl, _, set, _, registers, _, inputs, _, initial, _, most, _, persistent, _, rows, _,
      cols, rfl⟩

theorem returns : Returns ProgramSettings.toJson (ProgramSettings.ofJson? exactly) Fits := by
  intro s u
  have document : s.toJson.written = object [
      ("instruction_set", (string s.instructionSet.name).written),
      ("register_count", (ofNat s.registerCount).written),
      ("input_size", (ofNat s.inputSize).written),
      ("init_max_program_size", (ofNat s.initMaxProgramSize).written),
      ("max_program_size", (ofNat s.maxProgramSize).written),
      ("persistent_registers", (bool s.persistentRegisters).written),
      ("memory_rows", (ofNat s.memoryRows).written),
      ("memory_cols", (ofNat s.memoryCols).written)] := rfl
  rw [document, ofJson?_object rfl (exactly_finds rfl (by decide))]
  simp only [exactly_choice, exactly_natural, exactly_flag, InstructionSet.returns.eq_some,
    returns_ofNat.eq_some, returns_bool.eq_some]
  obtain ⟨_, _, _, _, _, _, _, _⟩ := s
  obtain ⟨_, _, _, _, _, _, _, _⟩ := u
  simp only [mk.injEq]
  constructor
  · rintro ⟨⟨-, rfl⟩, ⟨registers, rfl⟩, ⟨inputs, rfl⟩, ⟨initial, rfl⟩, ⟨most, rfl⟩, ⟨-, rfl⟩,
      ⟨rows, rfl⟩, cols, rfl⟩
    exact ⟨⟨registers, inputs, initial, most, rows, cols⟩, rfl, rfl, rfl, rfl, rfl, rfl, rfl, rfl⟩
  · rintro ⟨⟨registers, inputs, initial, most, rows, cols⟩, rfl, rfl, rfl, rfl, rfl, rfl, rfl, rfl⟩
    exact ⟨⟨trivial, rfl⟩, ⟨registers, rfl⟩, ⟨inputs, rfl⟩, ⟨initial, rfl⟩, ⟨most, rfl⟩,
      ⟨trivial, rfl⟩, ⟨rows, rfl⟩, cols, rfl⟩

end ProgramSettings

namespace MutationSettings

structure Sized (s : MutationSettings) : Prop where
  rampantGen : IsWord s.rampantGen
  rampantMin : IsWord s.rampantMin
  rampantMax : IsWord s.rampantMax
  maxTeamSize : IsWord s.maxTeamSize
  initMaxTeamSize : IsWord s.initMaxTeamSize

instance (s : MutationSettings) : Decidable s.Sized :=
  decidable_of_iff (_ ∧ _ ∧ _ ∧ _ ∧ _)
    ⟨fun ⟨a, b, c, d, e⟩ => ⟨a, b, c, d, e⟩, fun ⟨a, b, c, d, e⟩ => ⟨a, b, c, d, e⟩⟩

structure Fits (s : MutationSettings) : Prop where
  probabilities : ∀ pair ∈ s.probabilities, pair.2.isFinite = true
  sized : s.Sized

theorem ofJson?_object {reading : Reading} {a b c d e f g h i j k l m n o : Json}
    {s : MutationSettings} {fields : List (String × Json)}
    (listed : [("p_learner_delete", a), ("p_learner_add", b), ("p_learner_mutate", c),
      ("p_program_mutate", d), ("p_action_mutate", e), ("p_action_atomic", f),
      ("p_inst_delete", g), ("p_inst_add", h), ("p_inst_swap", i), ("p_inst_mutate", j),
      ("rampant_gen", k), ("rampant_min", l), ("rampant_max", m), ("max_team_size", n),
      ("init_max_team_size", o)] = fields)
    (found : reading.Finds fieldNames fields) :
    MutationSettings.ofJson? reading (object fields) = some s ↔
      (reading.float a = some s.pLearnerDelete ∧ reading.float b = some s.pLearnerAdd ∧
        reading.float c = some s.pLearnerMutate ∧ reading.float d = some s.pProgramMutate ∧
        reading.float e = some s.pActionMutate ∧ reading.float f = some s.pActionAtomic ∧
        reading.float g = some s.pInstDelete ∧ reading.float h = some s.pInstAdd ∧
        reading.float i = some s.pInstSwap ∧ reading.float j = some s.pInstMutate) ∧
      reading.natural k = some s.rampantGen ∧ reading.natural l = some s.rampantMin ∧
        reading.natural m = some s.rampantMax ∧ reading.natural n = some s.maxTeamSize ∧
        reading.natural o = some s.initMaxTeamSize := by
  subst listed
  have record : reading.record fieldNames (object _) = _ := found
  rw [MutationSettings.ofJson?, record]
  simp only [↓fields_eq_some, Option.pure_def, Option.some.injEq]
  constructor
  · rintro ⟨_, rfl, _, a, _, b, _, c, _, d, _, e, _, f, _, g, _, h, _, i, _, j, _, k, _, l, _, m,
      _, n, _, o, rfl⟩
    exact ⟨⟨a, b, c, d, e, f, g, h, i, j⟩, k, l, m, n, o⟩
  · rintro ⟨⟨a, b, c, d, e, f, g, h, i, j⟩, k, l, m, n, o⟩
    exact ⟨_, rfl, _, a, _, b, _, c, _, d, _, e, _, f, _, g, _, h, _, i, _, j, _, k, _, l, _, m,
      _, n, _, o, rfl⟩

theorem returns : Returns MutationSettings.toJson (MutationSettings.ofJson? exactly) Fits := by
  intro s u
  have document : s.toJson.written = object [
      ("p_learner_delete", (Json.real s.pLearnerDelete).written),
      ("p_learner_add", (Json.real s.pLearnerAdd).written),
      ("p_learner_mutate", (Json.real s.pLearnerMutate).written),
      ("p_program_mutate", (Json.real s.pProgramMutate).written),
      ("p_action_mutate", (Json.real s.pActionMutate).written),
      ("p_action_atomic", (Json.real s.pActionAtomic).written),
      ("p_inst_delete", (Json.real s.pInstDelete).written),
      ("p_inst_add", (Json.real s.pInstAdd).written),
      ("p_inst_swap", (Json.real s.pInstSwap).written),
      ("p_inst_mutate", (Json.real s.pInstMutate).written),
      ("rampant_gen", (ofNat s.rampantGen).written),
      ("rampant_min", (ofNat s.rampantMin).written),
      ("rampant_max", (ofNat s.rampantMax).written),
      ("max_team_size", (ofNat s.maxTeamSize).written),
      ("init_max_team_size", (ofNat s.initMaxTeamSize).written)] := rfl
  have all_finite : (∀ pair ∈ s.probabilities, pair.2.isFinite = true) ↔
      s.pLearnerDelete.isFinite ∧ s.pLearnerAdd.isFinite ∧ s.pLearnerMutate.isFinite ∧
        s.pProgramMutate.isFinite ∧ s.pActionMutate.isFinite ∧ s.pActionAtomic.isFinite ∧
        s.pInstDelete.isFinite ∧ s.pInstAdd.isFinite ∧ s.pInstSwap.isFinite ∧
        s.pInstMutate.isFinite := by
    simp [probabilities]
  have fits : s.Fits ↔ (∀ pair ∈ s.probabilities, pair.2.isFinite = true) ∧ IsWord s.rampantGen ∧
      IsWord s.rampantMin ∧ IsWord s.rampantMax ∧ IsWord s.maxTeamSize ∧
      IsWord s.initMaxTeamSize :=
    ⟨fun ⟨ps, k, l, m, n, o⟩ => ⟨ps, k, l, m, n, o⟩,
      fun ⟨ps, k, l, m, n, o⟩ => ⟨ps, ⟨k, l, m, n, o⟩⟩⟩
  rw [document, ofJson?_object rfl (exactly_finds rfl (by decide)), fits, all_finite]
  simp only [exactly_float, exactly_natural, returns_real.eq_some, returns_ofNat.eq_some]
  obtain ⟨_, _, _, _, _, _, _, _, _, _, _, _, _, _, _⟩ := s
  obtain ⟨_, _, _, _, _, _, _, _, _, _, _, _, _, _, _⟩ := u
  simp only [mk.injEq]
  constructor
  · rintro ⟨⟨⟨a, rfl⟩, ⟨b, rfl⟩, ⟨c, rfl⟩, ⟨d, rfl⟩, ⟨e, rfl⟩, ⟨f, rfl⟩, ⟨g, rfl⟩, ⟨h, rfl⟩,
      ⟨i, rfl⟩, j, rfl⟩, ⟨k, rfl⟩, ⟨l, rfl⟩, ⟨m, rfl⟩, ⟨n, rfl⟩, o, rfl⟩
    exact ⟨⟨⟨a, b, c, d, e, f, g, h, i, j⟩, k, l, m, n, o⟩, by simp only [and_self]⟩
  · rintro ⟨⟨⟨a, b, c, d, e, f, g, h, i, j⟩, k, l, m, n, o⟩, rfl, rfl, rfl, rfl, rfl, rfl, rfl,
      rfl, rfl, rfl, rfl, rfl, rfl, rfl, rfl⟩
    exact ⟨⟨⟨a, rfl⟩, ⟨b, rfl⟩, ⟨c, rfl⟩, ⟨d, rfl⟩, ⟨e, rfl⟩, ⟨f, rfl⟩, ⟨g, rfl⟩, ⟨h, rfl⟩,
      ⟨i, rfl⟩, j, rfl⟩, ⟨k, rfl⟩, ⟨l, rfl⟩, ⟨m, rfl⟩, ⟨n, rfl⟩, o, rfl⟩

end MutationSettings

namespace Settings

structure Fits (s : Settings) : Prop where
  trainer : s.trainer.Fits
  program : s.program.Fits
  mutation : s.mutation.Fits

theorem ofJson?_object {reading : Reading} {t p m : Json} {s : Settings}
    {fields : List (String × Json)}
    (listed : [("trainer", t), ("program", p), ("mutation", m)] = fields)
    (found : reading.Finds sectionNames fields) :
    Settings.ofJson? reading (object fields) = some s ↔
      TrainerSettings.ofJson? reading t = some s.trainer ∧
        ProgramSettings.ofJson? reading p = some s.program ∧
        MutationSettings.ofJson? reading m = some s.mutation := by
  subst listed
  have record : reading.record sectionNames (object _) = _ := found
  rw [Settings.ofJson?, record]
  simp only [↓fields_eq_some, Option.pure_def, Option.some.injEq]
  constructor
  · rintro ⟨_, rfl, _, trainer, _, program, _, mutation, rfl⟩
    exact ⟨trainer, program, mutation⟩
  · rintro ⟨trainer, program, mutation⟩
    exact ⟨_, rfl, _, trainer, _, program, _, mutation, rfl⟩

theorem returns : Returns Settings.toJson (Settings.ofJson? exactly) Fits := by
  intro s u
  have document : s.toJson.written = object [("trainer", s.trainer.toJson.written),
      ("program", s.program.toJson.written), ("mutation", s.mutation.toJson.written)] := rfl
  rw [document, ofJson?_object rfl (exactly_finds rfl (by decide)),
    TrainerSettings.returns.eq_some, ProgramSettings.returns.eq_some,
    MutationSettings.returns.eq_some]
  obtain ⟨_, _, _⟩ := s
  obtain ⟨_, _, _⟩ := u
  simp only [mk.injEq]
  constructor
  · rintro ⟨⟨trainer, rfl⟩, ⟨program, rfl⟩, mutation, rfl⟩
    exact ⟨⟨trainer, program, mutation⟩, rfl, rfl, rfl⟩
  · rintro ⟨⟨trainer, program, mutation⟩, rfl, rfl, rfl⟩
    exact ⟨⟨trainer, rfl⟩, ⟨program, rfl⟩, mutation, rfl⟩

end Settings

end TangledGraph
