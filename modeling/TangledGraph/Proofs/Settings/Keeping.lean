import TangledGraph.Proofs.Settings.Saved
import TangledGraph.Proofs.Yields
import TangledGraph.Settings.Store

/-!
# What a settings store keeps

A store starts with settings that are valid, and takes in none that are not. Changes, loads
and saves may fail in any order; each of them then leaves the settings as they are. What is
saved in a TOML file is loaded back as the same settings, whatever the store that loads it
has held.
-/
namespace TangledGraph

open Json Toml

/-- A call of a settings store, with what it finds around the store. -/
inductive StoreCall
  | update (change : Settings → Settings)
  | load (files : FileLookup) (path : String) (environment : List (String × String))
  /-- Saves to a file, if that takes the text. -/
  | save (takes : String → Bool)

namespace SettingsStore

variable {s t : SettingsStore} {settings : Settings} {call : StoreCall}

/-- Saves to a file, if that takes the text, and leads to the same store. -/
def save (s : SettingsStore) (takes : String → Bool) : Except Error SettingsStore := do
  if takes (← s.savedText) then pure s else throw .file

/-- The store that a call leads to, unless it fails. -/
def answer (s : SettingsStore) : StoreCall → Except Fault (Except Error SettingsStore)
  | .update change => pure (s.update change)
  | .load files path environment => s.load files path environment
  | .save takes => pure (s.save takes)

/-- Steps on the settings that a store holds. One that fails leaves them as the steps
before have made them. -/
abbrev InPlace := EStateM (Fault ⊕ Error) SettingsStore

namespace InPlace

def accept (candidate : Settings) : InPlace Unit := do
  if let .error problem := candidate.validate then throw (.inr (.configuration problem))
  modify fun s => { s with settings := candidate }

/-- Writes a text, if there is one and the file takes it. -/
def write (takes : String → Bool) : Except Error String → InPlace Unit
  | .ok text => if takes text then pure () else throw (.inr .file)
  | .error refusal => throw (.inr refusal)

/-- A call, step by step: a candidate is made from what is held or from the layers of a
file, and takes the place of what is held once it is found valid. -/
def perform : StoreCall → InPlace Unit
  | .update change => do accept (change (← get).settings)
  | .load files path environment => do
    let some fields := files.settingsFields? path | throw (.inr .unreadableSettings)
    match Settings.ofLayered (Settings.layered fields environment) with
    | .ok (some candidate) => accept candidate
    | .ok none => throw (.inr .unreadableSettings)
    | .error fault => throw (.inl fault)
  | .save takes => do write takes (← get).savedText

end InPlace

/-- The store that the steps of a call leave, whether or not they come to an end. -/
def after (s : SettingsStore) (call : StoreCall) : SettingsStore :=
  match (InPlace.perform call).run s with
  | .ok _ t => t
  | .error _ t => t

/-- What is left of a store by a call with an answer. -/
def settled (s : SettingsStore) : Except Fault (Except Error SettingsStore) →
    EStateM.Result (Fault ⊕ Error) SettingsStore Unit
  | .ok (.ok t) => .ok () t
  | .ok (.error e) => .error (.inr e) s
  | .error fault => .error (.inl fault) s

theorem InPlace.run_get_bind (step : SettingsStore → InPlace Unit) (s : SettingsStore) :
    (do step (← get)).run s = (step s).run s :=
  rfl

theorem InPlace.accept_run (s : SettingsStore) (candidate : Settings) :
    (accept candidate).run s = s.settled (pure (s.accept candidate)) := by
  unfold accept SettingsStore.accept
  cases candidate.validate <;> rfl

theorem InPlace.write_run (s : SettingsStore) (takes : String → Bool) (text : Except Error String) :
    (write takes text).run s =
      s.settled (pure (do if takes (← text) then pure s else throw .file)) := by
  obtain refusal | text := text
  · rfl
  · change (if takes text then pure () else throw (.inr .file) : InPlace Unit).run s =
      s.settled (pure (if takes text then pure s else throw .file))
    cases takes text <;> rfl

/-- The steps of a call come to its answer, and where they fail, they have changed nothing. -/
theorem InPlace.perform_run (s : SettingsStore) (call : StoreCall) :
    (perform call).run s = s.settled (s.answer call) := by
  cases call with
  | update change =>
    rw [perform, run_get_bind (fun s => accept (change s.settings)), accept_run, answer,
      SettingsStore.update]
  | load files path environment =>
    simp only [perform, answer, load]
    cases files.settingsFields? path with
    | none => rfl
    | some fields =>
      simp only [loadFields]
      generalize Settings.ofLayered (Settings.layered fields environment) = read
      obtain fault | ⟨none | candidate⟩ := read
      · rfl
      · rfl
      · exact accept_run s candidate
  | save takes =>
    rw [perform, run_get_bind (fun s => write takes s.savedText), write_run, answer, save]

theorem after_eq (s : SettingsStore) (call : StoreCall) : s.after call =
    match s.answer call with
    | .ok (.ok t) => t
    | _ => s := by
  rw [after, InPlace.perform_run]
  cases s.answer call with
  | error fault => rfl
  | ok answered => cases answered <;> rfl

theorem accept_of_valid (valid : settings.validate = .ok ()) :
    s.accept settings = .ok ⟨settings⟩ := by
  rw [accept, valid]

theorem validate_of_accept (accepted : s.accept settings = .ok t) :
    t.settings.validate = .ok () := by
  unfold accept at accepted
  split at accepted
  · obtain rfl := Except.ok.inj accepted
    assumption
  · cases accepted

theorem validate_of_load {files : FileLookup} {path : String}
    {environment : List (String × String)} (loaded : s.load files path environment = .ok (.ok t)) :
    t.settings.validate = .ok () := by
  unfold load loadFields at loaded
  split at loaded
  · obtain ⟨read, -, loaded⟩ := bind_eq_ok.1 loaded
    split at loaded
    · exact validate_of_accept (pure_eq_ok.1 loaded)
    · cases pure_eq_ok.1 loaded
  · cases pure_eq_ok.1 loaded

theorem eq_of_save {takes : String → Bool} (saved : s.save takes = .ok t) : s = t := by
  unfold save at saved
  generalize s.savedText = text at saved
  cases text with
  | error refusal => cases saved
  | ok text =>
    have written : (if takes text then pure s else throw Error.file) = Except.ok t := saved
    split at written
    · exact Except.ok.inj written
    · cases written

/-- Settings pass validation on every way into a store. -/
theorem validate_of_answer (held : s.settings.validate = .ok ())
    (answered : s.answer call = .ok (.ok t)) : t.settings.validate = .ok () := by
  cases call with
  | update change => exact validate_of_accept (pure_eq_ok.1 answered)
  | load files path environment => exact validate_of_load answered
  | save takes =>
    obtain rfl := eq_of_save (pure_eq_ok.1 answered)
    exact held

theorem validate_after (held : s.settings.validate = .ok ()) (call : StoreCall) :
    (s.after call).settings.validate = .ok () := by
  rw [after_eq]
  split
  · exact validate_of_answer held ‹_›
  · exact held

theorem validate_afterAll (held : s.settings.validate = .ok ()) (calls : List StoreCall) :
    (calls.foldl after s).settings.validate = .ok () := by
  induction calls generalizing s with
  | nil => exact held
  | cons call calls ih => exact ih (validate_after held call)

theorem validate_default : Settings.validate {} = .ok () := ok_of_toOption (by decide +kernel)

theorem savedText_eq_ok {text : String} : s.savedText = .ok text ↔
    ∃ document, storable? s.settings.toJson = some document ∧ Toml.render document = text := by
  rw [savedText, SettingsStore.saved]
  generalize storable? s.settings.toJson = stored
  cases stored <;> simp [Except.map]

theorem settingsFields?_toml {files : FileLookup} {path text : String}
    {fields : List (String × Json)} (file : files path = some text)
    (format : FileFormat.ofPath? path = some .toml)
    (read : FileFormat.toml.fields? text = some fields) :
    files.settingsFields? path = some fields := by
  rw [FileLookup.settingsFields?, FileLookup.settingsFile?, file]
  simp only [format, read, Option.map_some, Option.bind_eq_bind, Option.bind_some]

theorem load_of_fields {files : FileLookup} {path : String}
    {environment : List (String × String)} {fields : List (String × Json)}
    (found : files.settingsFields? path = some fields)
    (read : Settings.ofLayered (Settings.layered fields environment) = .ok (some settings))
    (valid : settings.validate = .ok ()) :
    s.load files path environment = .ok (.ok ⟨settings⟩) := by
  rw [load, found]
  simp only
  rw [loadFields, read]
  exact congrArg Except.ok (accept_of_valid valid)

/-- A TOML file with a saved text is loaded as the settings that were saved, unless
something overrides them. -/
theorem load_saved {text path : String} {files : FileLookup}
    {environment : List (String × String)} (valid : s.settings.validate = .ok ())
    (numbers : s.settings.trainer.actions.Numbers) (saved : s.savedText = .ok text)
    (file : files path = some text) (format : FileFormat.ofPath? path = some .toml)
    (bare : Settings.overrides environment = []) (other : SettingsStore) :
    other.load files path environment = .ok (.ok s) := by
  obtain ⟨document, stored, rfl⟩ := savedText_eq_ok.1 saved
  obtain ⟨rfl, plainly⟩ := Settings.storable?_saved (Settings.valid_of_validate valid) numbers
    stored
  have fields := plainly.orderly.fields?_render (by decide)
  have read : Settings.ofLayered (Settings.layered (objects s.settings.saved) environment) =
      .ok (some s.settings) := by
    rw [Settings.layered_eq plainly.orderly Settings.direct_saved bare, plainly.ofLayered_eq]
  exact load_of_fields (settingsFields?_toml file format fields) read valid

/-- What holds of a store whatever has been asked of it. -/
structure Keeping (s : SettingsStore) : Prop where
  valid : s.settings.validate = .ok ()
  /-- A call that gives no store is refused or stopped. -/
  failed : ∀ call, (∀ t, s.answer call ≠ .ok (.ok t)) → s.after call = s
  returned : s.settings.trainer.actions.Numbers → ∀ text, s.savedText = .ok text →
    ∀ (files : FileLookup) (path : String) (environment : List (String × String)),
      files path = some text → FileFormat.ofPath? path = some .toml →
      Settings.overrides environment = [] →
      ∀ other : SettingsStore, other.load files path environment = .ok (.ok s)

/-- After any calls a store holds valid settings, a call that fails leaves them as they
are, and a file that they are saved in gives them to any store. -/
theorem keeps_settings (calls : List StoreCall) : Keeping (calls.foldl after {}) where
  valid := validate_afterAll validate_default calls
  failed := by
    intro call failed
    rw [after_eq]
    split
    · exact absurd ‹_› (failed _)
    · rfl
  returned := fun numbers text saved files path environment file format bare other =>
    load_saved (validate_afterAll validate_default calls) numbers saved file format bare other

/-- A change to codes of two floats, one that is refused, and a save that finds no room. -/
def fewCalls : List StoreCall :=
  [.update fun s => { s with trainer := { s.trainer with actions := .real [[0.5], [-1.0]] } },
    .update fun s => { s with trainer := { s.trainer with teamPopSize := 0 } },
    .save fun _ => false]

theorem keeps_settings_fewCalls : ∃ text, (fewCalls.foldl after {}).savedText = .ok text ∧
    ∀ other : SettingsStore,
      other.load (fun path => if path = "saved.toml" then some text else none) "saved.toml" [] =
        .ok (.ok (fewCalls.foldl after {})) := by
  have storable : (storable? (fewCalls.foldl after {}).settings.toJson).isSome = true := by
    decide +kernel
  obtain ⟨document, stored⟩ := Option.isSome_iff_exists.1 storable
  have saved := savedText_eq_ok.2 ⟨document, stored, rfl⟩
  have numbers : (fewCalls.foldl after {}).settings.trainer.actions.Numbers := by decide +kernel
  refine ⟨Toml.render document, saved, ?_⟩
  exact (keeps_settings fewCalls).returned numbers _ saved _ _ _ (if_pos rfl) (by decide) rfl

end SettingsStore

end TangledGraph
