import TangledGraph.CommandLine.Session

/-!
# Sessions on files in memory

A directory of text files, and sessions whose paths start from it. A directory
below is there as long as it holds a file. The directories above and the root
are there too, and hold nothing else to begin with.
-/
namespace TangledGraph.CommandLine

/-- Where something is: the names on the way down from the working directory,
after as many `..` as lead up, or from the root, which is named `/`. -/
abbrev Location := List String

/-- Text files by their locations. -/
structure Directory where
  files : List (Location × String) := []
  deriving Repr

namespace Directory

def isDirectory (d : Directory) (location : Location) : Bool :=
  location.all (· = "..") || location = ["/"] ||
    d.files.any fun (l, _) => location.isPrefixOf l && location.length < l.length

/-- The location one up. -/
def above (location : Location) : Location :=
  if location.all (· = "..") then location ++ [".."]
  else if location = ["/"] then location
  else location.dropLast

/-- The longest name of a file, in bytes. -/
def nameLimit : Nat := 255

/-- Follows one part of a path, which only leads on from a directory. -/
def follow? (d : Directory) (location : Location) (part : String) : Option Location :=
  if !d.isDirectory location then none
  else if part = "" || part = "." then some location
  else if part = ".." then some (above location)
  else if part.utf8ByteSize ≤ nameLimit then some (location ++ [part])
  else none

/-- The location that a path leads to, whether or not there is something. -/
def locate? (d : Directory) (path : String) : Option Location :=
  match path.splitOn "/" with
  | [""] => none
  | "" :: parts => parts.foldlM d.follow? ["/"]
  | parts => parts.foldlM d.follow? []

def entry (d : Directory) (path : String) : Entry :=
  match d.locate? path with
  | none => .absent
  | some location =>
    if d.isDirectory location then .unreadable
    else match d.files.lookup location with
      | some text => .file text
      | none => .absent

/-- Puts a file in place of the one at its path. -/
def write? (d : Directory) (path text : String) : Option Directory := do
  let location ← d.locate? path
  if d.isDirectory location then none
  else some ⟨(location, text) :: d.files.filter (·.1 != location)⟩

/-- A directory of files by their paths, which lead down. -/
def ofFiles (files : List (String × String)) : Directory :=
  ⟨files.map fun (path, text) =>
    ((path.splitOn "/").filter fun part => part != "" && part != ".", text)⟩

end Directory

/-- A directory in the course of a session, with the lines that were printed,
the last one first. -/
structure Desk where
  directory : Directory
  printed : List String := []

def Desk.host (environment : List (String × String)) (entropy : Stream) : Host (StateM Desk) where
  look path := do return (← get).directory.entry path
  write path text := do
    let desk ← get
    match desk.directory.write? path text with
    | some directory => set { desk with directory }; pure true
    | none => pure false
  print line := modify fun desk => { desk with printed := line :: desk.printed }
  environment := environment
  entropy := entropy

/-- What a session leaves to see. -/
structure Outcome where
  code : UInt32
  printed : List String
  reported : List String
  deriving Repr

/-- Runs a session in a directory. -/
def Directory.run (d : Directory) (environment : List (String × String)) (entropy : Stream)
    (arguments : List String) : Outcome × Directory :=
  let (result, desk) := ((Desk.host environment entropy).session arguments).run.run ⟨d, []⟩
  let printed := desk.printed.reverse
  match result with
  | .ok () => (⟨0, printed, []⟩, desk.directory)
  | .error failure => (⟨failure.code, printed, failure.report⟩, desk.directory)

end TangledGraph.CommandLine
