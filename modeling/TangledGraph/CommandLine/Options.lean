import TangledGraph.Decimal.Reader

/-!
# Options of the command line

`--generations` and `--checkpoint` take a value each; every other argument is
the path of a settings file. Of repeated options the last counts.
-/
namespace TangledGraph.CommandLine

structure Options where
  /-- The path of a settings file. -/
  config : Option String := none
  generations : Nat := 20
  /-- The path of the checkpoint to take up and to save. -/
  checkpoint : Option String := none
  deriving DecidableEq, Repr

inductive UsageError
  | missingGenerations
  | invalidGenerations
  | missingCheckpoint
  deriving DecidableEq, Repr

def UsageError.message : UsageError → String
  | missingGenerations => "--generations needs a value"
  | invalidGenerations => "--generations must be a number"
  | missingCheckpoint => "--checkpoint needs a path"

namespace Options

/-- Takes in arguments in order, until one is refused. -/
def read : List String → Options → Except UsageError Options
  | [], o => .ok o
  | ["--generations"], _ => .error .missingGenerations
  | "--generations" :: value :: rest, o =>
    match Decimal.unsigned64? value.toList with
    | some generations => read rest { o with generations }
    | none => .error .invalidGenerations
  | ["--checkpoint"], _ => .error .missingCheckpoint
  | "--checkpoint" :: path :: rest, o => read rest { o with checkpoint := some path }
  | path :: rest, o => read rest { o with config := some path }

def ofArguments (arguments : List String) : Except UsageError Options := read arguments {}

end Options

end TangledGraph.CommandLine
