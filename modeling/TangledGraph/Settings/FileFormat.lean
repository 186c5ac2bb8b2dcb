import TangledGraph.Json.Reader
import TangledGraph.Toml.Reader

/-!
# Formats of settings files

A settings file is written in TOML or in JSON, which the extension of its name
tells. It holds an object, and what the formats disagree on is evened out: of
fields of one name the last counts, and whole numbers fit 64 bits.
-/
namespace TangledGraph

open Json

namespace Json

mutual

/-- Objects with the last of the fields of one name alone, and whole numbers
that fit 64 bits neither with a sign nor without as floats. -/
def canonical : Json → Json
  | integer n => if -Nat.pow 2 63 ≤ n ∧ n < Nat.pow 2 64 then integer n else real (Float.ofInt n)
  | array items => array (canonicalItems items)
  | object fields => object (canonicalFields fields)
  | null => null
  | bool b => bool b
  | real x => real x
  | string s => string s
  | unrepresentable => unrepresentable

def canonicalItems : List Json → List Json
  | [] => []
  | j :: rest => canonical j :: canonicalItems rest

def canonicalFields : List (String × Json) → List (String × Json)
  | [] => []
  | (name, j) :: rest =>
    let later := canonicalFields rest
    if later.any (·.1 == name) then later else (name, canonical j) :: later

end

mutual

/-- How deep arrays and objects are nested. -/
def depth : Json → Nat
  | array items => depthOfItems items + 1
  | object fields => depthOfFields fields + 1
  | null | bool _ | integer _ | real _ | string _ | unrepresentable => 0

def depthOfItems : List Json → Nat
  | [] => 0
  | j :: rest => max j.depth (depthOfItems rest)

def depthOfFields : List (String × Json) → Nat
  | [] => 0
  | (_, j) :: rest => max j.depth (depthOfFields rest)

end

end Json

/-- The formats of settings files. -/
inductive FileFormat
  | toml
  | json
  deriving DecidableEq, Repr

namespace FileFormat

def extension : FileFormat → String
  | toml => "toml"
  | json => "json"

def all : List FileFormat := [toml, json]

/-- The path with the extension of a format after the last name in it. A path
has no last name if it ends where it starts or above. -/
def extend? (format : FileFormat) (path : String) : Option String :=
  match (path.splitOn "/").reverse.dropWhile fun part => part = "" || part = "." with
  | [] | ".." :: _ => none
  | parts => some ("/".intercalate parts.reverse ++ "." ++ format.extension)

/-- The format that the extension of a file name tells: what follows the last
point of it, if anything precedes the point. -/
def ofPath? (path : String) : Option FileFormat :=
  let name := path.toList.reverse.takeWhile (· != '/')
  let ending := String.ofList (name.takeWhile (· != '.')).reverse
  if (name.dropWhile (· != '.')).length ≤ 1 then none
  else if ending = "toml" then some toml
  else if ending = "json" then some json
  else none

/-- The depth from which on JSON settings are refused. -/
def depthLimit : Nat := 128

/-- The document that a text holds. JSON is refused if it is nested too deep or
if some part of it stands for nothing, even where no setting is. -/
def parse : FileFormat → String → Option Json
  | toml, text => Toml.parse text
  | json, text => (Json.parse text).filter fun j => j.depth < depthLimit && j.isRepresentable

/-- The fields of the object that a file holds, after a byte order mark at most. -/
def fields? (format : FileFormat) (text : String) : Option (List (String × Json)) := do
  let chars := text.toList
  let text := if chars.head? = some '\ufeff' then String.ofList (chars.drop 1) else text
  match ← format.parse text with
  | .object fields => some (canonicalFields fields)
  | _ => none

end FileFormat

end TangledGraph
