import TangledGraph.Proofs.Settings.Layers
import TangledGraph.Proofs.Settings.Stored
import TangledGraph.Proofs.Settings.Valid

/-!
# Settings in a saved document

A document is saved without the fields that hold nothing, and only if its numbers fit 64
bits with a sign. Settings come out as plain values and then at most one table in each
section, and the tolerant reader makes the same settings of these.
-/
namespace TangledGraph

open Json Rounding

namespace Toml

variable {α : Type} {room : Nat} {j k : Json} {values rest stored : List (String × Json)}

/-- A value that is stored as it is or not at all, and then holds no tables. -/
structure Faithful (room : Nat) (j : Json) : Prop where
  some_value : j ≠ null
  stored : ∀ k, storable? j = some k → k = j ∧ Plain room j

theorem faithful_bool (b : Bool) : Faithful room (bool b) where
  some_value := nofun
  stored := by
    rintro k ⟨⟩
    exact ⟨rfl, .bool b⟩

theorem faithful_string (s : String) : Faithful room (string s) where
  some_value := nofun
  stored := by
    rintro k ⟨⟩
    exact ⟨rfl, .string s⟩

theorem faithful_real {x : Float} (number : x.isNaN = false) : Faithful room (real x) where
  some_value := nofun
  stored := by
    rintro k ⟨⟩
    exact ⟨rfl, .real number⟩

theorem faithful_integer (n : Int) : Faithful room (integer n) where
  some_value := nofun
  stored := by
    intro k stored
    have fits : inRange n = some k := stored
    obtain ⟨-, rfl⟩ := inRange_eq_some.1 fits
    exact ⟨rfl, .integer fits⟩

theorem faithful_ofNat (n : Nat) : Faithful room (ofNat n) := faithful_integer n

theorem storableItems?_faithful {items stored : List Json}
    (faithful : ∀ j ∈ items, Faithful room j) (all : storableItems? items = some stored) :
    stored = items ∧ ∀ j ∈ items, Plain room j := by
  induction items generalizing stored with
  | nil =>
    obtain rfl := Option.some.inj all
    exact ⟨rfl, List.forall_mem_nil _⟩
  | cons j items ih =>
    obtain ⟨first, others⟩ := List.forall_mem_cons.1 faithful
    simp only [storableItems?, Option.bind_eq_bind, Option.bind_eq_some_iff, Option.pure_def,
      Option.some.injEq] at all
    obtain ⟨k, one, later, all, rfl⟩ := all
    obtain ⟨rfl, plain⟩ := first.stored k one
    obtain ⟨rfl, plains⟩ := ih others all
    exact ⟨rfl, List.forall_mem_cons.2 ⟨plain, plains⟩⟩

theorem faithful_list {write : α → Json} {xs : List α}
    (faithful : ∀ x ∈ xs, Faithful room (write x)) : Faithful (room + 1) (ofList write xs) where
  some_value := nofun
  stored := by
    intro k stored
    obtain ⟨items, all, rfl⟩ := Option.map_eq_some_iff.1 stored
    obtain ⟨rfl, plain⟩ := storableItems?_faithful (List.forall_mem_map.2 faithful) all
    exact ⟨rfl, .array plain⟩

theorem storableFields?_cons {name : String} (value : j ≠ null) :
    storableFields? ((name, j) :: rest) = some stored ↔
      ∃ k later, storable? j = some k ∧ storableFields? rest = some later ∧
        (name, k) :: later = stored := by
  rw [storableFields?]
  · simp only [Option.bind_eq_bind, Option.bind_eq_some_iff, Option.pure_def, Option.some.injEq]
    constructor
    · rintro ⟨k, one, later, all, eq⟩
      exact ⟨k, later, one, all, eq⟩
    · rintro ⟨k, later, one, all, eq⟩
      exact ⟨k, one, later, all, eq⟩
  · exact value

/-- Faithful values in front of other fields are stored as they are. -/
theorem storableFields?_faithful (faithful : ∀ field ∈ values, Faithful room field.2)
    (all : storableFields? (values ++ rest) = some stored) :
    ∃ later, storableFields? rest = some later ∧ stored = values ++ later ∧
      ∀ field ∈ values, Plain room field.2 := by
  induction values generalizing stored with
  | nil => exact ⟨stored, all, rfl, List.forall_mem_nil _⟩
  | cons field values ih =>
    obtain ⟨name, j⟩ := field
    obtain ⟨first, others⟩ := List.forall_mem_cons.1 faithful
    rw [List.cons_append, storableFields?_cons first.some_value] at all
    obtain ⟨k, later, one, all, rfl⟩ := all
    obtain ⟨rfl, plain⟩ := first.stored k one
    obtain ⟨last, ends, rfl, plains⟩ := ih others all
    exact ⟨last, ends, rfl, List.forall_mem_cons.2 ⟨plain, plains⟩⟩

theorem storable?_faithful (faithful : ∀ field ∈ values, Faithful room field.2)
    (stored : storable? (object values) = some j) :
    j = object values ∧ ∀ field ∈ values, Plain room field.2 := by
  obtain ⟨fields, all, rfl⟩ := Option.map_eq_some_iff.1 stored
  rw [← List.append_nil values] at all
  obtain ⟨later, ends, rfl, plain⟩ := storableFields?_faithful faithful all
  obtain rfl := Option.some.inj ends
  exact ⟨by rw [List.append_nil], plain⟩

theorem Plain.isSignedWord {n : Int} (plain : Plain room (.integer n)) : IsSignedWord n := by
  cases plain with
  | integer fits => exact (inRange_eq_some.1 fits).1

theorem looseNatural?_ofNat {n : Nat} (plain : Plain room (ofNat n)) :
    looseNatural? (ofNat n) = some n := by
  have unfolded : looseNatural? (ofNat n) = natural? (ofNat n).written := rfl
  have high : (n : Int) < (Nat.pow 2 63 : Nat) := plain.isSignedWord.2
  have wider : Nat.pow 2 63 ≤ Nat.pow 2 64 := by decide
  have word : n < Nat.pow 2 64 := by omega
  rw [unfolded]
  exact returns_ofNat.eq_some.2 ⟨word, rfl⟩

theorem looseWhole?_integer {n : Int} (plain : Plain room (integer n)) :
    looseWhole? (integer n) = some n := by
  have unfolded : looseWhole? (integer n) = whole? (integer n).written := rfl
  rw [unfolded]
  exact returns_integer.eq_some.2 ⟨plain.isSignedWord, rfl⟩

theorem list?_ofList {write : α → Json} {read : Json → Option α} {xs : List α}
    (returns : ∀ x ∈ xs, read (write x) = some x) : list? read (ofList write xs) = some xs := by
  have unfolded : list? read (ofList write xs) = (xs.map write).mapM read := rfl
  rw [unfolded]
  induction xs with
  | nil => rfl
  | cons x xs ih =>
    obtain ⟨first, others⟩ := List.forall_mem_cons.1 returns
    rw [List.map_cons, List.mapM_cons, first, ih others rfl]
    rfl

theorem option?_ofNat {read : Json → Option α} {n : Nat} :
    option? read (ofNat n) = (read (ofNat n)).map some := rfl

/-- Plain values are orderly without any tables. -/
theorem orderly_values {depth : Nat} (plain : ∀ field ∈ values, Plain depthLimit field.2)
    (distinct : (values.map (·.1)).Nodup) : Orderly (depth + 1) values := by
  have orderly : Orderly (depth + 1) (values ++ objects []) :=
    .intro plain (by simpa using distinct) (List.forall_mem_nil _) (List.forall_mem_nil _)
  rwa [objects, List.map_nil, List.append_nil] at orderly

end Toml

open Toml

theorem valueLines_ne_nil {field : String × Json} (plain : Plain room field.2)
    (fields : List (String × Json)) : valueLines (field :: fields) ≠ [] := by
  rw [plain.valueLines_cons]
  exact List.cons_ne_nil _ _

theorem loosely_natural : loosely.natural = looseNatural? := rfl

theorem loosely_finds (names : List String) (fields : List (String × Json)) :
    loosely.Finds names fields := rfl

namespace CodeSet

variable {s : CodeSet} {j : Json}

/-- Whole numbers, or floats that are numbers. -/
def Numbers : CodeSet → Prop
  | discrete _ => True
  | real values => ∀ xs ∈ values, ∀ x ∈ xs, x.isNaN = false

instance : DecidablePred Numbers
  | discrete _ => isTrue trivial
  | real values => inferInstanceAs (Decidable (∀ xs ∈ values, ∀ x ∈ xs, x.isNaN = false))

theorem faithful (numbers : s.Numbers) :
    ∀ field ∈ fieldsOf s.toJson, Faithful depthLimit field.2 := by
  cases s with
  | discrete values =>
    exact List.forall_mem_singleton.2 (faithful_list fun n _ => faithful_integer n)
  | real values =>
    refine List.forall_mem_singleton.2 (faithful_list fun xs mem => ?_)
    exact faithful_list fun x code => faithful_real (numbers xs mem x code)

theorem ofJson?_loosely (plain : ∀ field ∈ fieldsOf s.toJson, Plain depthLimit field.2) :
    CodeSet.ofJson? loosely s.toJson = some s := by
  cases s with
  | discrete values =>
    cases List.forall_mem_singleton.1 plain with
    | array inner =>
      refine ofJson?_discrete.2 ⟨values, list?_ofList fun n mem => ?_, rfl⟩
      exact looseWhole?_integer (inner _ (List.mem_map_of_mem mem))
  | real values =>
    refine ofJson?_real.2 ⟨values, list?_ofList fun xs _ => ?_, rfl⟩
    exact list?_ofList fun x _ => rfl

theorem toJson_eq (s : CodeSet) : s.toJson = object (fieldsOf s.toJson) := by
  cases s <;> rfl

end CodeSet

namespace TrainerSettings

variable {s : TrainerSettings} {j : Json}

/-- What is saved in front of the codes: a seed only if there is one. -/
def values (s : TrainerSettings) : List (String × Json) :=
  [("team_pop_size", ofNat s.teamPopSize), ("gap", real s.gap), ("elitist", bool s.elitist),
    ("root_based_population", bool s.rootBasedPopulation),
    ("retained_tasks", ofList string s.retainedTasks)] ++
    (s.seed.map fun n => ofNat n.toNat).toList.map (("seed", ·))

/-- The fields of a saved record. -/
def saved (s : TrainerSettings) : List (String × Json) :=
  s.values ++ objects [("actions", fieldsOf s.actions.toJson)]

theorem faithful (number : s.gap.isNaN = false) :
    ∀ field ∈ s.values, Faithful depthLimit field.2 := by
  have tasks : Faithful (79 + 1) (ofList string s.retainedTasks) :=
    faithful_list fun task _ => faithful_string task
  refine List.forall_mem_append.2 ⟨?_, ?_⟩
  · simp only [List.forall_mem_cons]
    exact ⟨faithful_ofNat _, faithful_real number, faithful_bool _, faithful_bool _, tasks,
      List.forall_mem_nil _⟩
  · intro field mem
    obtain ⟨j, seed, rfl⟩ := List.mem_map.1 mem
    obtain ⟨n, -, rfl⟩ := Option.map_eq_some_iff.1 (Option.mem_toList.1 seed)
    exact faithful_ofNat _

/-- A missing seed is left out. -/
theorem storable?_toJson (s : TrainerSettings) :
    storable? s.toJson = storable? (object s.saved) := by
  rw [saved, objects, List.map_singleton, ← CodeSet.toJson_eq]
  obtain ⟨_, _, _, _, _, seed, _⟩ := s
  cases seed <;> rfl

theorem storable?_saved (number : s.gap.isNaN = false) (numbers : s.actions.Numbers)
    (stored : storable? s.toJson = some j) : j = object s.saved ∧
      (∀ field ∈ s.values, Plain depthLimit field.2) ∧
        ∀ field ∈ fieldsOf s.actions.toJson, Plain depthLimit field.2 := by
  rw [storable?_toJson, saved, storable?] at stored
  obtain ⟨fields, all, rfl⟩ := Option.map_eq_some_iff.1 stored
  obtain ⟨later, codes, rfl, plain⟩ := storableFields?_faithful (faithful number) all
  have table : object (fieldsOf s.actions.toJson) ≠ null := nofun
  rw [objects, List.map_singleton, storableFields?_cons table] at codes
  obtain ⟨k, none, one, ends, rfl⟩ := codes
  obtain ⟨rfl, codes⟩ := storable?_faithful (CodeSet.faithful numbers) one
  obtain rfl := Option.some.inj ends
  exact ⟨rfl, plain, codes⟩

theorem orderly (plain : ∀ field ∈ s.values, Plain depthLimit field.2)
    (codes : ∀ field ∈ fieldsOf s.actions.toJson, Plain depthLimit field.2) :
    Orderly 2 s.saved := by
  refine .intro plain ?_ ?_ ?_
  · rw [values]
    cases s.seed <;> simp
  · refine List.forall_mem_singleton.2 (.inr ?_)
    cases actions : s.actions <;> rw [actions] at codes <;>
      exact valueLines_ne_nil (codes _ List.mem_cons_self) _
  · refine List.forall_mem_singleton.2 (orderly_values codes ?_)
    cases s.actions <;> exact List.nodup_singleton _

theorem ofJson?_loosely (plain : ∀ field ∈ s.values, Plain depthLimit field.2)
    (codes : ∀ field ∈ fieldsOf s.actions.toJson, Plain depthLimit field.2) :
    TrainerSettings.ofJson? loosely (object s.saved) = some s := by
  obtain ⟨size, rest⟩ := List.forall_mem_cons.1 plain
  have seed : withDefault none (option? fun j => (looseNatural? j).map UInt64.ofNat)
      (s.seed.map fun n => ofNat n.toNat) = some s.seed := by
    cases seed : s.seed with
    | none => rfl
    | some n =>
      have stored : ("seed", ofNat n.toNat) ∈ s.values := by
        rw [values, seed]
        exact List.mem_append_right _ List.mem_cons_self
      have read := looseNatural?_ofNat (plain _ stored)
      rw [Option.map_some, withDefault, option?_ofNat, read, Option.map_some, Option.map_some,
        UInt64.ofNat_toNat]
  rw [saved, objects, List.map_singleton, ← CodeSet.toJson_eq]
  refine (ofJson?_object rfl (loosely_finds _ _)).2 ?_
  simp only [loosely_natural]
  exact ⟨looseNatural?_ofNat size, rfl, rfl, rfl, list?_ofList fun _ _ => rfl, seed,
    CodeSet.ofJson?_loosely codes⟩

end TrainerSettings

namespace ProgramSettings

variable {s : ProgramSettings}

theorem faithful (s : ProgramSettings) :
    ∀ field ∈ fieldsOf s.toJson, Faithful depthLimit field.2 := by
  simp [toJson, fieldsOf, faithful_string, faithful_ofNat, faithful_bool]

theorem ofJson?_loosely (plain : ∀ field ∈ fieldsOf s.toJson, Plain depthLimit field.2) :
    ProgramSettings.ofJson? loosely s.toJson = some s := by
  simp only [toJson, fieldsOf, List.forall_mem_cons] at plain
  obtain ⟨-, registers, inputs, initial, most, -, rows, cols, -⟩ := plain
  have set : (looseChoice? (string s.instructionSet.name)).bind InstructionSet.ofName? =
      some s.instructionSet := by
    cases s.instructionSet <;> rfl
  rw [toJson, ofJson?_object rfl (loosely_finds _ _)]
  simp only [loosely_natural]
  exact ⟨set, looseNatural?_ofNat registers, looseNatural?_ofNat inputs,
    looseNatural?_ofNat initial, looseNatural?_ofNat most, rfl, looseNatural?_ofNat rows,
    looseNatural?_ofNat cols⟩

end ProgramSettings

namespace MutationSettings

variable {s : MutationSettings}

theorem faithful (finite : ∀ pair ∈ s.probabilities, pair.2.isNaN = false) :
    ∀ field ∈ fieldsOf s.toJson, Faithful depthLimit field.2 := by
  refine List.forall_mem_append.2 ⟨?_, ?_⟩
  · intro field mem
    obtain ⟨pair, named, rfl⟩ := List.mem_map.1 mem
    exact faithful_real (finite pair named)
  · simp [faithful_ofNat]

theorem ofJson?_loosely (plain : ∀ field ∈ fieldsOf s.toJson, Plain depthLimit field.2) :
    MutationSettings.ofJson? loosely s.toJson = some s := by
  obtain ⟨-, sizes⟩ := List.forall_mem_append.1 plain
  simp only [List.forall_mem_cons] at sizes
  obtain ⟨generation, least, most, team, initial, -⟩ := sizes
  refine (ofJson?_object rfl (loosely_finds _ (fieldsOf s.toJson))).2 ?_
  simp only [loosely_natural]
  exact ⟨⟨rfl, rfl, rfl, rfl, rfl, rfl, rfl, rfl, rfl, rfl⟩, looseNatural?_ofNat generation,
    looseNatural?_ofNat least, looseNatural?_ofNat most, looseNatural?_ofNat team,
    looseNatural?_ofNat initial⟩

end MutationSettings

namespace Settings

variable {s : Settings} {j : Json}

/-- The sections of a saved document. -/
def saved (s : Settings) : List (String × List (String × Json)) :=
  [("trainer", s.trainer.saved), ("program", fieldsOf s.program.toJson),
    ("mutation", fieldsOf s.mutation.toJson)]

/-- What a saved document promises of the values in it. -/
structure Plainly (s : Settings) : Prop where
  trainer : ∀ field ∈ s.trainer.values, Plain depthLimit field.2
  codes : ∀ field ∈ fieldsOf s.trainer.actions.toJson, Plain depthLimit field.2
  program : ∀ field ∈ fieldsOf s.program.toJson, Plain depthLimit field.2
  mutation : ∀ field ∈ fieldsOf s.mutation.toJson, Plain depthLimit field.2

/-- Valid settings whose codes are numbers are saved section by section, or refused. -/
theorem storable?_saved (valid : s.Valid) (numbers : s.trainer.actions.Numbers)
    (stored : storable? s.toJson = some j) : j = object (objects s.saved) ∧ s.Plainly := by
  have gap := isNaN_of_isFinite (isFinite_of_isProbability valid.gap)
  have probabilities : ∀ pair ∈ s.mutation.probabilities, pair.2.isNaN = false := fun pair mem =>
    isNaN_of_isFinite (isFinite_of_isProbability (valid.probabilities pair mem))
  have sections : s.trainer.toJson ≠ null ∧ s.program.toJson ≠ null ∧ s.mutation.toJson ≠ null :=
    ⟨nofun, nofun, nofun⟩
  rw [toJson, storable?] at stored
  obtain ⟨fields, all, rfl⟩ := Option.map_eq_some_iff.1 stored
  rw [storableFields?_cons sections.1] at all
  obtain ⟨trainer, later, first, all, rfl⟩ := all
  rw [storableFields?_cons sections.2.1] at all
  obtain ⟨program, later, second, all, rfl⟩ := all
  rw [storableFields?_cons sections.2.2] at all
  obtain ⟨mutation, later, third, all, rfl⟩ := all
  obtain rfl := Option.some.inj all
  obtain ⟨rfl, values, codes⟩ := TrainerSettings.storable?_saved gap numbers first
  obtain ⟨rfl, sizes⟩ := storable?_faithful (ProgramSettings.faithful s.program) second
  obtain ⟨rfl, rates⟩ := storable?_faithful (MutationSettings.faithful probabilities) third
  exact ⟨rfl, values, codes, sizes, rates⟩

theorem Plainly.orderly (plainly : s.Plainly) : Orderly 3 (objects s.saved) := by
  obtain ⟨values, codes, sizes, rates⟩ := plainly
  have program : ((fieldsOf s.program.toJson).map (·.1)).Nodup := by
    have names : (fieldsOf s.program.toJson).map (·.1) = ProgramSettings.fieldNames := rfl
    rw [names]
    decide
  have mutation : ((fieldsOf s.mutation.toJson).map (·.1)).Nodup := by
    have names : (fieldsOf s.mutation.toJson).map (·.1) = MutationSettings.fieldNames := rfl
    rw [names]
    decide
  have headed : ∀ t ∈ s.saved, t.2 = [] ∨ valueLines t.2 ≠ [] := by
    simp only [saved, List.forall_mem_cons]
    exact ⟨.inr (valueLines_ne_nil (values _ List.mem_cons_self) _),
      .inr (valueLines_ne_nil (sizes _ List.mem_cons_self) _),
      .inr (valueLines_ne_nil (rates _ List.mem_cons_self) _), List.forall_mem_nil _⟩
  have inner : ∀ t ∈ s.saved, Orderly 2 t.2 := by
    simp only [saved, List.forall_mem_cons]
    exact ⟨TrainerSettings.orderly values codes, orderly_values sizes program,
      orderly_values rates mutation, List.forall_mem_nil _⟩
  have distinct : (s.saved.map (·.1)).Nodup := by
    have names : s.saved.map (·.1) = sectionNames := rfl
    rw [names]
    decide
  have orderly : Orderly (2 + 1) ([] ++ objects s.saved) :=
    .intro (List.forall_mem_nil _) distinct headed inner
  exact orderly

theorem Plainly.ofJson?_loosely (plainly : s.Plainly) :
    Settings.ofJson? loosely (object (objects s.saved)) = some s := by
  refine (ofJson?_object rfl (loosely_finds _ _)).2 ⟨?_, ?_, ?_⟩
  · exact TrainerSettings.ofJson?_loosely plainly.trainer plainly.codes
  · exact ProgramSettings.ofJson?_loosely plainly.program
  · exact MutationSettings.ofJson?_loosely plainly.mutation

/-- A set of codes that is saved lists its codes. -/
theorem Plainly.ofLayered_eq (plainly : s.Plainly) :
    Settings.ofLayered (.object (objects s.saved)) = .ok (some s) := by
  have codes : s.trainer.saved.lookup "actions" =
      some (object (fieldsOf s.trainer.actions.toJson)) := by
    rw [TrainerSettings.saved, TrainerSettings.values]
    cases s.trainer.seed <;> rfl
  have listed : Settings.namesBareCodes (.object (objects s.saved)) = false := by
    have trainer : (do (← loosely.record sectionNames (object (objects s.saved))) "trainer") =
        some (object s.trainer.saved) := rfl
    have actions : (do
        (← loosely.record TrainerSettings.fieldNames (object s.trainer.saved)) "actions") =
        some (object (fieldsOf s.trainer.actions.toJson)) := codes
    rw [namesBareCodes, trainer, Option.any_some]
    simp only [actions, Bool.false_and]
  rw [Settings.ofLayered, listed, plainly.ofJson?_loosely]
  rfl

theorem direct_saved : ∀ field ∈ objects s.saved, Place.path field.1 = [.field field.1] := by
  have direct : ∀ name ∈ sectionNames, Place.path name = [.field name] := by decide
  intro field mem
  exact direct _ (List.mem_map_of_mem (f := (·.1)) mem)

end Settings

end TangledGraph
