import TangledGraph.Json.Value
import TangledGraph.Toml.Reader

/-!
# Places in settings

A path such as `trainer.gap` or `trainer.actions.discrete[0]` leads to a place in
a document. A value can be laid over the part that is there, which is made if it
is missing.
-/
namespace TangledGraph

open Json

/-- A step from a document into a part of it. -/
inductive Place
  | field (name : String)
  /-- An item of an array, from the end if negative. -/
  | item (index : Int)
  deriving DecidableEq, Repr

namespace Place

open Text Text.Reader

/-- A name of letters, digits, dashes and underscores. -/
def name : Reader String := do
  let text ← takeWhile Toml.isKeyChar
  if text.isEmpty then failure else pure (String.ofList text)

/-- The index in brackets, after the opening one; it fits 64 bits with a sign. -/
def index : Reader Int := do
  skipWhile Toml.isBlank
  let sign := if ← tryChar '-' then ['-'] else []
  let digits ← takeWhile Decimal.isDigit
  skipWhile Toml.isBlank
  char ']'
  match Decimal.signed64? (sign ++ digits) with
  | some n => pure n
  | none => failure

/-- The rest of a path: fields after points and items in brackets. -/
def steps : Nat → Reader (List Place)
  | 0 => failure
  | fuel + 1 => do
    match ← peek with
    | none => pure []
    | some '.' => let _ ← next; return field (← name) :: (← steps fuel)
    | some '[' => let _ ← next; return item (← index) :: (← steps fuel)
    | some _ => failure

/-- The path that a text writes; a text that writes none is the name of a field. -/
def path (text : String) : List Place :=
  let chars := text.toList
  let read : Reader (List Place) := do return field (← name) :: (← steps (chars.length + 1))
  (whole read chars).getD [field text]

end Place

namespace Json

/-- The fields of an object, none for any other document. -/
def fieldsOf : Json → List (String × Json)
  | object fields => fields
  | _ => []

/-- The items of an array, none for any other document. -/
def itemsOf : Json → List Json
  | array items => items
  | _ => []

/-- Changes the field of a name, from null if there is none. -/
def changeField (name : String) (change : Json → Json) :
    List (String × Json) → List (String × Json)
  | [] => [(name, change null)]
  | (n, j) :: rest =>
    if n = name then (n, change j) :: rest else (n, j) :: changeField name change rest

/-- Changes the item at an index. Missing items are null before the change;
they are added at the end, or at the front if the index counts from the end. -/
def changeItem (index : Int) (change : Json → Json) (items : List Json) : List Json :=
  let fromStart := if index < 0 then items.length + index else index
  let missing := if fromStart < 0 then (-fromStart).toNat else fromStart.toNat + 1 - items.length
  let padding := List.replicate missing null
  let padded := if fromStart < 0 then padding ++ items else items ++ padding
  padded.modify fromStart.toNat change

mutual

/-- One document over another: objects are merged field by field, and any other
document takes the place of the one below. -/
def overlay (below : Json) : Json → Json
  | object fields => object (overlayFields (fieldsOf below) fields)
  | j => j

def overlayFields (below : List (String × Json)) : List (String × Json) → List (String × Json)
  | [] => below
  | (name, j) :: rest => overlayFields (changeField name (fun old => overlay old j) below) rest

end

/-- Lays a value over the part of a document at a path. What stands in the way
of the path gives way to an object or an array. -/
def setAt (value : Json) : List Place → Json → Json
  | [], j => overlay j value
  | .field name :: rest, j => object (changeField name (setAt value rest) (fieldsOf j))
  | .item index :: rest, j => array (changeItem index (setAt value rest) (itemsOf j))

/-- Lays entries over a document, each at the place that its name tells. -/
def setAll (entries : List (String × Json)) (j : Json) : Json :=
  entries.foldl (fun j (name, value) => setAt value (Place.path name) j) j

end Json

end TangledGraph
