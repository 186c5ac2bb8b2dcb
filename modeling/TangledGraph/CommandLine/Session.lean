import TangledGraph.CommandLine.Options
import TangledGraph.Settings.Store
import TangledGraph.Training.Checkpoint
import TangledGraph.Training.Largest

/-!
# Sessions

A session trains on the task of the largest input: it loads settings, takes up a
checkpoint or starts anew, runs generations and saves. It reaches files and the
console through a host, so that the same session runs on a machine and on files
in memory.
-/
namespace TangledGraph.CommandLine

/-- What there is at a path. -/
inductive Entry
  | absent
  | file (text : String)
  /-- A directory, or a file without readable text. -/
  | unreadable

/-- What a session needs of its surroundings. -/
structure Host (m : Type → Type) where
  look : String → m Entry
  /-- Writes a file and tells whether it could be written. -/
  write : String → String → m Bool
  /-- Prints a line. -/
  print : String → m Unit
  environment : List (String × String)
  /-- Random words for trainers without a seed. -/
  entropy : Stream

/-- How a session fails. -/
inductive Failure
  | usage (problem : UsageError)
  | loading (path : String) (cause : Error)
  | saving (path : String) (cause : Error)
  | refused (error : Error)
  | stopped (fault : Fault)

namespace Failure

def message : Failure → String
  | usage problem => problem.message
  | loading path _ => "loading " ++ path
  | saving path _ => "saving " ++ path
  | refused error => error.message
  | stopped fault => fault.message?.getD "stopped"

def cause? : Failure → Option Error
  | loading _ cause | saving _ cause => some cause
  | usage _ | refused _ | stopped _ => none

/-- What is reported of a failure. -/
def report (f : Failure) : List String :=
  ("Error: " ++ f.message) :: match f.cause? with
    | some cause => ["", "Caused by:", "    " ++ cause.message]
    | none => []

/-- The exit code; a fault has one of its own. -/
def code : Failure → UInt32
  | stopped _ => 101
  | usage _ | loading .. | saving .. | refused _ => 1

end Failure

/-- The line that shows a step of a run. -/
def progressLine : Progress → String
  | .started generation => s!"Generation {generation} starting..."
  | .evaluated _ agents => s!"  Evaluated {agents} agents"
  | .completed s =>
    s!"Generation {s.generation} complete. Best fitness: " ++ Decimal.fixed 4 s.bestFitness
      ++ s!", teams: {s.teams}, learners: {s.learners}, roots: {s.roots}"

namespace Host

variable {m : Type → Type} [Monad m] {α : Type}

/-- Goes on with a result; a fault ends the session. -/
def unlessStopped (result : Except Fault α) : ExceptT Failure m α :=
  match result with
  | .ok a => pure a
  | .error fault => throw (.stopped fault)

/-- Goes on with a result; an error ends the session as the failure that it makes. -/
def unlessRefused (failure : Error → Failure) (result : Except Error α) : ExceptT Failure m α :=
  match result with
  | .ok a => pure a
  | .error e => throw (failure e)

/-- The files among some paths. -/
def lookup (host : Host m) : List String → m FileLookup
  | [] => pure fun _ => none
  | path :: rest => do
    let entry ← host.look path
    let files ← host.lookup rest
    match entry with
    | .file text => pure fun p => if p = path then some text else files p
    | .absent | .unreadable => pure files

/-- The settings of a file, or else those for the task. -/
def settings (host : Host m) : Option String → ExceptT Failure m Settings
  | some path => do
    let files ← host.lookup (settingsPaths path)
    let loaded ← unlessStopped (SettingsStore.load {} files path host.environment)
    return (← unlessRefused (.loading path) loaded).settings
  | none =>
    return (← unlessRefused .refused (SettingsStore.update {} Largest.settings)).settings

/-- The trainer of a checkpoint, if there is one, and else a new one. -/
def trainer (host : Host m) (checkpoint : Option String) (s : Settings) :
    ExceptT Failure m Trainer := do
  let entry ← match checkpoint with
    | some path => host.look path
    | none => pure .absent
  let result ← match entry with
    | .absent => unlessStopped (Trainer.create s host.entropy)
    | .file text => unlessStopped (Trainer.loadText text host.entropy)
    | .unreadable => pure (.error .document)
  unlessRefused .refused result

/-- Runs generations, each on inputs of its own, and shows their progress. -/
def train (host : Host m) : Nat → Stream → Trainer → ExceptT Failure m Trainer
  | 0, _, t => pure t
  | n + 1, stream, t => do
    let (inputs, stream) ← unlessStopped (Largest.drawInputs.run stream)
    let run ← unlessStopped
      (t.run {} [Largest.task] .single (Largest.environment inputs) 1)
    run.progress.forM fun step => host.print (progressLine step)
    let _ ← unlessRefused .refused run.result
    host.train n stream run.trainer

def save (host : Host m) (t : Trainer) : Option String → ExceptT Failure m Unit
  | some path => do
    if !(← host.write path t.savedText) then throw (.saving path .file)
  | none => pure ()

/-- A whole session with the given arguments. -/
def session (host : Host m) (arguments : List String) : ExceptT Failure m Unit := do
  match Options.ofArguments arguments with
  | .error problem => throw (.usage problem)
  | .ok options =>
    let s ← host.settings options.config
    let t ← host.trainer options.checkpoint s
    let t ← host.train options.generations (Stream.ofSeed (UInt64.ofNat t.generation)) t
    host.save t options.checkpoint

end Host

end TangledGraph.CommandLine
