import TangledGraph.Decimal.Layout
import TangledGraph.Decimal.Reader
import TangledGraph.Json.Decode

/-!
# Settings from loose documents

Overrides are all text, and a settings file may quote its numbers. So settings
that are loaded are read by a tolerant rule: a scalar of another kind counts if
it has an obvious meaning. Numbers are rounded to the nearest whole number, a
half away from zero, and cut to the range.
-/
namespace TangledGraph.Json

/-- The truth value that a word names, in any letter case. -/
def truthWord? (s : String) : Option Bool :=
  let word := String.ofList (s.toList.map Char.toLower)
  if ["true", "on", "yes"].contains word then some true
  else if ["false", "off", "no"].contains word then some false
  else none

/-- Reads text as a number: a word for a truth value counts as one or zero. -/
def numberOfText? {α : Type} (ofBool : Bool → α) (read : List Char → Option α) (s : String) :
    Option α :=
  match truthWord? s with
  | some b => some (ofBool b)
  | none => read s.toList

def looseNatural? : Json → Option Nat
  | integer n => natural? (integer n)
  | real x => some x.round.toUInt64.toNat
  | bool b => some b.toNat
  | string s => numberOfText? Bool.toNat Decimal.unsigned64? s
  | _ => none

def looseWhole? : Json → Option Int
  | integer n => whole? (integer n)
  | real x => some x.round.toInt64.toInt
  | bool b => some b.toNat
  | string s => numberOfText? (fun b => (b.toNat : Int)) Decimal.signed64? s
  | _ => none

def looseFloat? : Json → Option Float
  | integer n => some (Float.ofInt n)
  | real x => some x
  | bool b => some (if b then 1.0 else 0.0)
  | string s => numberOfText? (fun b => if b then 1.0 else 0.0) Decimal.float? s
  | _ => none

/-- A number counts as true unless it is zero. -/
def looseFlag? : Json → Option Bool
  | integer n => some (n != 0)
  | real x => some (x != 0.0)
  | bool b => some b
  | string s => if s = "1" then some true else if s = "0" then some false else truthWord? s
  | _ => none

def looseText? : Json → Option String
  | integer n => some (toString n)
  | real x => some (Decimal.plain x)
  | bool b => some (if b then "true" else "false")
  | string s => some s
  | _ => none

/-- A name, or an object with one field of that name, whatever it holds. -/
def looseChoice? : Json → Option String
  | string s => some s
  | object [(name, _)] => some name
  | _ => none

/-- The fields of an object, or the items of an array as the fields in order;
items beyond the last field do not matter. -/
def looseRecord? (names : List String) : Json → Option (String → Option Json)
  | object fields => some fun name => fields.lookup name
  | array items => some fun name => (names.zip items).lookup name
  | _ => none

/-- The tolerant rule. -/
def loosely : Reading :=
  ⟨looseNatural?, looseWhole?, looseFloat?, looseFlag?, looseText?, looseChoice?, looseRecord?⟩

end TangledGraph.Json
