/-!
# Documents

Nested values as JSON has them. Whole numbers and floats are kept apart, and an
object keeps its fields in order, repeated names included. A text can also spell
values that no document holds, such as a number beyond all floats; these have a
place in a document, but nothing is read from them.
-/
namespace TangledGraph

inductive Json
  | null
  | bool (value : Bool)
  | integer (value : Int)
  | real (value : Float)
  | string (value : String)
  | array (items : List Json)
  | object (fields : List (String × Json))
  /-- A value that is spelled well and stands for nothing. -/
  | unrepresentable
  deriving Repr, Inhabited

namespace Json

/-- The field of an object; of fields with one name the last counts. -/
def field? (name : String) : Json → Option Json
  | object fields => fields.reverse.lookup name
  | _ => none

def ofNat (n : Nat) : Json := integer n

def ofOption {α : Type} (f : α → Json) : Option α → Json
  | some a => f a
  | none => null

def ofList {α : Type} (f : α → Json) (xs : List α) : Json := array (xs.map f)

mutual

/-- The document as it reads back once written: a float that is infinite or not
a number is written as null, and so is what is not representable. -/
def written : Json → Json
  | real x => if x.isFinite then real x else null
  | unrepresentable => null
  | array items => array (writtenItems items)
  | object fields => object (writtenFields fields)
  | null => null
  | bool b => bool b
  | integer n => integer n
  | string s => string s

def writtenItems : List Json → List Json
  | [] => []
  | j :: rest => j.written :: writtenItems rest

def writtenFields : List (String × Json) → List (String × Json)
  | [] => []
  | (name, j) :: rest => (name, j.written) :: writtenFields rest

end

mutual

/-- Whether every part of a document stands for something. -/
def isRepresentable : Json → Bool
  | array items => areRepresentable items
  | object fields => haveRepresentable fields
  | unrepresentable => false
  | null | bool _ | integer _ | real _ | string _ => true

def areRepresentable : List Json → Bool
  | [] => true
  | j :: rest => j.isRepresentable && areRepresentable rest

def haveRepresentable : List (String × Json) → Bool
  | [] => true
  | (_, j) :: rest => j.isRepresentable && haveRepresentable rest

end

end Json

end TangledGraph
