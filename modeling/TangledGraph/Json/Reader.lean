import TangledGraph.Decimal.Reader
import TangledGraph.Json.Value
import TangledGraph.Text.Reader

/-!
# Reading JSON text

The strict grammar: one value, with white space around it. A numeral without
point and exponent is a whole number, except that `-0` is the float minus zero.
A numeral beyond all floats and a string with half of a surrogate pair are
spelled well but stand for nothing, and so does an object with such a name.
-/
namespace TangledGraph.Json

open Text Text.Reader

def isBlank (c : Char) : Bool := c = ' ' || c = '\t' || c = '\n' || c = '\r'

def blanks : Reader Unit := skipWhile isBlank

/-- The code unit after the escape mark `u`. -/
def codeUnit : Reader Nat := do
  match hexValue? (← take 4) with
  | some n => pure n
  | none => failure

/-- The character of a code unit, which may be the first half of a pair; none
for a half that stands alone. -/
def unitChar (unit : Nat) : Reader (Option Char) := do
  if !isSurrogate unit then pure (some (Char.ofNat unit))
  else if unit < 0xDC00 && (← tryWord ['\\', 'u']) then
    let low ← codeUnit
    pure (if isSurrogate low && 0xDC00 ≤ low then
      some (Char.ofNat (0x10000 + (unit - 0xD800) * 0x400 + (low - 0xDC00))) else none)
  else pure none

/-- The character that an escape mark stands for, if it stands for one. -/
def escaped : Char → Reader (Option Char)
  | '"' => pure (some '"')
  | '\\' => pure (some '\\')
  | '/' => pure (some '/')
  | 'b' => pure (some '\x08')
  | 'f' => pure (some '\x0c')
  | 'n' => pure (some '\n')
  | 'r' => pure (some '\r')
  | 't' => pure (some '\t')
  | 'u' => do unitChar (← codeUnit)
  | _ => failure

/-- The string up to the closing quote, with the characters before in reverse;
none if some escape mark stands for no character. -/
def quotedTail : Nat → Option (List Char) → Reader (Option String)
  | 0, _ => failure
  | fuel + 1, seen => do
    match ← next with
    | '"' => pure (seen.map fun chars => String.ofList chars.reverse)
    | '\\' =>
      let c ← escaped (← next)
      quotedTail fuel (do return (← c) :: (← seen))
    | c => if c.toNat < 0x20 then failure else quotedTail fuel (seen.map (c :: ·))

/-- The whole part of a numeral: no digit follows a leading zero. -/
def wholeDigits : Reader (List Char) := do
  if ← tryChar '0' then pure ['0']
  else
    let digits ← takeWhile Decimal.isDigit
    if digits.isEmpty then failure else pure digits

/-- The digits after a point, if one comes next. -/
def fractionDigits : Reader (Option (List Char)) := do
  if ← tryChar '.' then
    let digits ← takeWhile Decimal.isDigit
    if digits.isEmpty then failure else pure (some digits)
  else pure none

/-- The power after an exponent mark, if one comes next. -/
def power : Reader (Option Int) := do
  let mark ← peek
  if mark = some 'e' || mark = some 'E' then
    let _ ← next
    let minus ← tryChar '-'
    if !minus then let _ ← tryChar '+'
    let digits ← takeWhile Decimal.isDigit
    if digits.isEmpty then failure
    let n : Int := Decimal.natural digits
    pure (some (if minus then -n else n))
  else pure none

def number : Reader Json := do
  let minus ← tryChar '-'
  let digits ← wholeDigits
  let fraction ← fractionDigits
  let exponent ← power
  if fraction.isNone && exponent.isNone then
    let n := Decimal.natural digits
    if !(Decimal.nearest n 0).isFinite then return unrepresentable
    pure (if minus then (if n = 0 then real (-0.0) else integer (-n)) else integer n)
  else
    let x := Decimal.ofParts minus digits (fraction.getD []) (exponent.getD 0)
    pure (if x.isFinite then real x else unrepresentable)

mutual

/-- A value at the front of the text. -/
def value : Nat → Reader Json
  | 0 => failure
  | fuel + 1 => do
    blanks
    match ← peek with
    | some '{' =>
      let _ ← next
      blanks
      if ← tryChar '}' then pure (object []) else fields fuel (some [])
    | some '[' =>
      let _ ← next
      blanks
      if ← tryChar ']' then pure (array []) else items fuel []
    | some '"' => let _ ← next; return ((← quotedTail fuel (some [])).map string).getD unrepresentable
    | some 't' => word "true".toList; pure (bool true)
    | some 'f' => word "false".toList; pure (bool false)
    | some 'n' => word "null".toList; pure null
    | _ => number

/-- The items from one on, with the items before it in reverse. -/
def items : Nat → List Json → Reader Json
  | 0, _ => failure
  | fuel + 1, seen => do
    let item ← value fuel
    blanks
    if ← tryChar ',' then items fuel (item :: seen)
    else char ']'; pure (array (item :: seen).reverse)

/-- The object of the fields from one on, with the fields before it in reverse,
if all names so far are strings. -/
def fields : Nat → Option (List (String × Json)) → Reader Json
  | 0, _ => failure
  | fuel + 1, seen => do
    blanks
    char '"'
    let name ← quotedTail fuel (some [])
    blanks
    char ':'
    let item ← value fuel
    blanks
    let seen := do return ((← name), item) :: (← seen)
    if ← tryChar ',' then fields fuel seen
    else char '}'; pure ((seen.map fun fields => object fields.reverse).getD unrepresentable)

end

/-- The value that a text spells. -/
def parse (text : String) : Option Json :=
  let chars := text.toList
  whole (do let j ← value (chars.length + 1); blanks; pure j) chars

end TangledGraph.Json
