import TangledGraph.Error
import TangledGraph.Settings.FileFormat
import TangledGraph.Settings.Layers
import TangledGraph.Toml.Writer

/-!
# The settings store

A store holds settings that can be changed, loaded and saved. Changes and loads
go through validation, and one that is refused gives no new store. Loading
starts from the defaults, not from what the store holds.
-/
namespace TangledGraph

/-- The files that can be looked up by path. -/
abbrev FileLookup := String → Option String

/-- The paths at which a settings file is looked for. -/
def settingsPaths (path : String) : List String :=
  path :: FileFormat.all.filterMap (·.extend? path)

/-- The file at a path, or else at the path with the extension of a format. -/
def FileLookup.settingsFile? (files : FileLookup) (path : String) : Option (FileFormat × String) :=
  match files path with
  | some text => (FileFormat.ofPath? path).map (·, text)
  | none => FileFormat.all.findSome? fun format => do
    return (format, ← files (← format.extend? path))

/-- The fields of the settings file at a path. -/
def FileLookup.settingsFields? (files : FileLookup) (path : String) :
    Option (List (String × Json)) := do
  let (format, text) ← files.settingsFile? path
  format.fields? text

structure SettingsStore where
  settings : Settings := {}
  deriving Repr

namespace SettingsStore

/-- Takes in settings if they are valid. -/
def accept (s : SettingsStore) (settings : Settings) : Except Error SettingsStore :=
  match settings.validate with
  | .ok () => .ok { s with settings }
  | .error problem => .error (.configuration problem)

def update (s : SettingsStore) (change : Settings → Settings) : Except Error SettingsStore :=
  s.accept (change s.settings)

/-- Takes in the settings of a file with these fields, under overrides from
environment variables. -/
def loadFields (s : SettingsStore) (fields : List (String × Json))
    (environment : List (String × String)) : Except Fault (Except Error SettingsStore) := do
  match ← Settings.ofLayered (Settings.layered fields environment) with
  | some settings => pure (s.accept settings)
  | none => pure (.error .unreadableSettings)

def load (s : SettingsStore) (files : FileLookup) (path : String)
    (environment : List (String × String)) : Except Fault (Except Error SettingsStore) :=
  match files.settingsFields? path with
  | some fields => s.loadFields fields environment
  | none => pure (.error .unreadableSettings)

/-- The document that is saved; numbers beyond 64 bits with a sign refuse it. -/
def saved (s : SettingsStore) : Except Error Json :=
  (Toml.storable? s.settings.toJson).elim (.error (.configuration .unwritableNumber)) .ok

def savedText (s : SettingsStore) : Except Error String := s.saved.map Toml.render

end SettingsStore

end TangledGraph
