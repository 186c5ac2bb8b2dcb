import TangledGraph.Json.Value

/-!
# Records in documents

How typed values are read from documents: scalars and records by rules that say
which documents stand for which values, the rest by one rule for all.
-/
namespace TangledGraph.Json

/-- Which documents are read as which values. -/
structure Reading where
  natural : Json → Option Nat
  whole : Json → Option Int
  float : Json → Option Float
  flag : Json → Option Bool
  text : Json → Option String
  /-- The name of a choice that carries nothing else. -/
  choice : Json → Option String
  /-- The fields of a record by their names; all of them have defaults. -/
  record : List String → Json → Option (String → Option Json)

def natural? : Json → Option Nat
  | integer n => if 0 ≤ n ∧ n < Nat.pow 2 64 then some n.toNat else none
  | _ => none

def whole? : Json → Option Int
  | integer n => if -Nat.pow 2 63 ≤ n ∧ n < Nat.pow 2 63 then some n else none
  | _ => none

/-- A finite number, whole or not. -/
def float? : Json → Option Float
  | integer n => let x := Float.ofInt n; if x.isFinite then some x else none
  | real x => if x.isFinite then some x else none
  | _ => none

def flag? : Json → Option Bool
  | bool b => some b
  | _ => none

def text? : Json → Option String
  | string s => some s
  | _ => none

def choice? : Json → Option String
  | string s => some s
  | object [(name, null)] => some name
  | _ => none

/-- Null for nothing, or a value. -/
def option? {α : Type} (read : Json → Option α) : Json → Option (Option α)
  | null => some none
  | j => (read j).map some

def list? {α : Type} (read : Json → Option α) : Json → Option (List α)
  | array items => items.mapM read
  | _ => none

/-- A choice that carries a value: an object with one field. -/
def variant? : Json → Option (String × Json)
  | object [field] => some field
  | _ => none

/-- The fields of a record by their names. A record is an object, in which no
known name may come twice and unknown names do not matter, or the array of its
fields in order, which may end early only if fields have defaults. -/
def record? (names : List String) (defaults : Bool) : Json → Option (String → Option Json)
  | object fields =>
    if names.all fun name => fields.countP (·.1 == name) ≤ 1 then
      some fun name => fields.lookup name
    else none
  | array items =>
    if items.length = names.length || (defaults && items.length < names.length) then
      some fun name => (names.zip items).lookup name
    else none
  | _ => none

/-- Every scalar by its own kind of document; floats may be whole. -/
def exactly : Reading :=
  ⟨natural?, whole?, float?, flag?, text?, choice?, fun names => record? names true⟩

/-- A field that has to be there. -/
def required {α : Type} (read : Json → Option α) (field : Option Json) : Option α :=
  field.bind read

/-- A field that may be left out. -/
def withDefault {α : Type} (default : α) (read : Json → Option α) (field : Option Json) :
    Option α :=
  match field with
  | some j => read j
  | none => some default

end TangledGraph.Json
