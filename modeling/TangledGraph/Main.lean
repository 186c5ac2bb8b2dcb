import TangledGraph.CommandLine.Session

/-!
# The program

Sessions on the files and the console of the machine.
-/

namespace TangledGraph.CommandLine

/-- What there is at a path of the machine. An error that names the path comes
from a path that leads nowhere, unless access to what is there was denied. -/
def lookAt (path : String) : IO Entry := do
  try
    return .file (← IO.FS.readFile path)
  catch
    | .noFileOrDirectory .. | .inappropriateType (some _) .. | .invalidArgument (some _) .. =>
      return .absent
    | _ => return .unreadable

def writeTo (path text : String) : IO Bool := do
  try
    IO.FS.writeFile path text
    return true
  catch _ => return false

/-- The variables of the environment, as the system lists them. -/
def environmentOf (listing : String) : List (String × String) :=
  (listing.splitOn "\x00").filterMap fun entry =>
    match entry.splitOn "=" with
    | name :: value :: rest => some (name, "=".intercalate (value :: rest))
    | _ => none

/-- Eight random bytes of the system seed the entropy. -/
def systemEntropy : IO Stream := do
  let bytes ← IO.getRandomBytes 8
  return .ofSeed (bytes.foldl (fun word byte => word * 256 + byte.toUInt64) 0)

def systemHost : IO (Host IO) := do
  let environment ← match ← lookAt "/proc/self/environ" with
    | .file listing => pure (environmentOf listing)
    | .absent | .unreadable => pure []
  return {
    look := lookAt
    write := writeTo
    print := IO.println
    environment
    entropy := ← systemEntropy }

end TangledGraph.CommandLine

open TangledGraph.CommandLine in
def main (arguments : List String) : IO UInt32 := do
  let host ← systemHost
  match ← (host.session arguments).run with
  | .ok () => return 0
  | .error failure =>
    failure.report.forM IO.eprintln
    return failure.code
