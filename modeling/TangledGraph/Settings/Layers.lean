import TangledGraph.Fault
import TangledGraph.Settings.Coercion
import TangledGraph.Settings.Document
import TangledGraph.Settings.Place

/-!
# Layers of settings

Settings are loaded from a file under a layer of overrides from the environment.
Every entry of a layer names a place in one document and is laid over what is
there already.
-/
namespace TangledGraph

open Json

namespace Settings

/-- The lower case of a character if that is in ASCII, as all known names are:
there the Kelvin sign has one beside the capital letters. -/
def lowerCase (c : Char) : Char := if c = '\u212a' then 'k' else c.toLower

/-- The entry that an environment variable makes: its name starts with `TPG__`
in any letter case, and two underscores in the rest stand for a point. -/
def override? (name value : String) : Option (String × Json) :=
  let lower := String.ofList (name.toList.map lowerCase)
  match lower.splitOn "__" with
  | "tpg" :: first :: rest => some (".".intercalate (first :: rest), .string value)
  | _ => none

def overrides (environment : List (String × String)) : List (String × Json) :=
  environment.filterMap fun (name, value) => override? name value

/-- The document of a file under a layer of overrides. -/
def layered (file : List (String × Json)) (environment : List (String × String)) : Json :=
  setAll (overrides environment) (setAll file (object []))

/-- A record of the trainer without its last field, the set of codes. -/
def withoutCodes : Json → Json
  | object fields => object (fields.filter (·.1 != "actions"))
  | array items => array (items.take (TrainerSettings.fieldNames.length - 1))
  | j => j

/-- Whether a document names a set of codes and lists none, in a record of the
trainer whose other fields can be read. -/
def namesBareCodes (j : Json) : Bool :=
  let trainer? := do (← loosely.record sectionNames j) "trainer"
  trainer?.any fun trainer =>
    let codes? := do (← loosely.record TrainerSettings.fieldNames trainer) "actions"
    (codes? matches some (.string "discrete") | some (.string "real")) &&
      (TrainerSettings.ofJson? loosely (withoutCodes trainer)).isSome

/-- The settings that a document stands for, if it has the form. -/
def ofLayered (j : Json) : Except Fault (Option Settings) :=
  if namesBareCodes j then throw .bareCodes else pure (Settings.ofJson? loosely j)

end Settings

end TangledGraph
