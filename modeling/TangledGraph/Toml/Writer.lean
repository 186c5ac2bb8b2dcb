import TangledGraph.Decimal.Layout
import TangledGraph.Toml.Reader

/-!
# Writing TOML text

A table is written as its values, a line each, and then the tables in it, each
under a header with its path and after an empty line. An array of two or more
items takes a line for every item. Strings are quoted in the plainest way that
needs no escape mark, if there is one.
-/
namespace TangledGraph.Toml

mutual

/-- The document as a text can hold it: fields without a value are left out.
There is none if a whole number does not fit 64 bits with a sign. -/
def storable? : Json → Option Json
  | .null | .unrepresentable => none
  | .integer n => inRange n
  | .array items => (storableItems? items).map .array
  | .object fields => (storableFields? fields).map .object
  | .bool b => some (.bool b)
  | .real x => some (.real x)
  | .string s => some (.string s)

def storableItems? : List Json → Option (List Json)
  | [] => some []
  | j :: rest => do return (← storable? j) :: (← storableItems? rest)

def storableFields? : List (String × Json) → Option (List (String × Json))
  | [] => some []
  | (_, .null) :: rest => storableFields? rest
  | (name, j) :: rest => do return (name, ← storable? j) :: (← storableFields? rest)

end

/-- The length of the longest run of a character. -/
def longestRun (c : Char) (text : List Char) : Nat :=
  (text.foldl (fun (run, longest) d =>
    if d = c then (run + 1, max longest (run + 1)) else (0, longest)) (0, 0)).2

/-- The kinds of quotes, each for one line or, if long, for several. -/
inductive Quotes
  /-- Double quotes, within which characters can be escaped. -/
  | basic (long : Bool)
  /-- Single quotes, within which every character stands for itself. -/
  | literal (long : Bool)
  deriving DecidableEq, Repr

/-- The first kind of quotes that needs no escape mark (short before long and
double before single), and double quotes if none does. A tabulator does not
count: it can stand as it is. -/
def Quotes.ofText (text : List Char) : Quotes :=
  let lines := text.contains '\n'
  let backslash := text.contains '\\'
  if text.any fun c => isControl c && c != '\n' then basic lines
  else if !backslash && !text.contains '"' && !lines then basic false
  else if !text.contains '\'' && !lines then literal false
  else if !backslash && longestRun '"' text ≤ 2 then basic true
  else if longestRun '\'' text ≤ 2 then literal true
  else basic lines

/-- The form of a character other than a quote within double quotes. -/
def escapeChar (long : Bool) (c : Char) : List Char :=
  if c = '\\' then ['\\', '\\']
  else if c = '\n' then (if long then ['\n'] else ['\\', 'n'])
  else if c = '\t' then ['\\', 't']
  else if c = '\r' then ['\\', 'r']
  else if c = '\x08' then ['\\', 'b']
  else if c = '\x0c' then ['\\', 'f']
  else if isControl c then '\\' :: 'u' :: (Text.hexDigits 4 c.toNat).map Char.toUpper
  else [c]

/-- The characters between double quotes. Long ones hold up to two quotes in a
row as they are; `room` is how many more may follow. -/
def escape (long : Bool) : Nat → List Char → List Char
  | _, [] => []
  | 0, '"' :: rest => '\\' :: '"' :: escape long (if long then 2 else 0) rest
  | room + 1, '"' :: rest => '"' :: escape long room rest
  | _, c :: rest => escapeChar long c ++ escape long (if long then 2 else 0) rest

/-- Text between quotes of a kind. A text of several lines starts on a line of
its own. -/
def quotedAs (quotes : Quotes) (text : List Char) : String :=
  let newline := if text.contains '\n' then ['\n'] else []
  let delimit := fun quote long (body : List Char) =>
    let mark := List.replicate (if long then 3 else 1) quote
    String.ofList (mark ++ (if long then newline else []) ++ body ++ mark)
  match quotes with
  | .basic long => delimit '"' long (escape long (if long then 2 else 0) text)
  | .literal long => delimit '\'' long text

def quotedText (s : String) : String := quotedAs (Quotes.ofText s.toList) s.toList

/-- A key, in quotes only if it needs them. -/
def keyText (name : String) : String :=
  let text := name.toList
  if !text.isEmpty && text.all isKeyChar then name else quotedAs (.basic false) text

def numeral (x : Float) : String := if x.isNaN then "nan" else Decimal.fractional x

/-- Brackets around items: up to one on the same line, more on lines of their own. -/
def bracketed (items : List String) : String :=
  if items.length ≤ 1 then "[" ++ String.join items ++ "]"
  else "[" ++ String.join (items.map fun item => "\n    " ++ item ++ ",") ++ "\n]"

mutual

/-- A value on the right of an equals sign. -/
def renderValue : Json → String
  | .null | .unrepresentable => ""
  | .bool b => if b then "true" else "false"
  | .integer n => toString n
  | .real x => numeral x
  | .string s => quotedText s
  | .array items => bracketed (renderItems items)
  | .object fields => "\x7b " ++ ", ".intercalate (renderPairs fields) ++ " \x7d"

def renderItems : List Json → List String
  | [] => []
  | j :: rest => renderValue j :: renderItems rest

def renderPairs : List (String × Json) → List String
  | [] => []
  | (name, j) :: rest => (keyText name ++ " = " ++ renderValue j) :: renderPairs rest

end

/-- The lines of the fields that are no tables. -/
def valueLines (fields : List (String × Json)) : List String :=
  fields.filterMap fun (name, j) =>
    match j with
    | .object _ => none
    | _ => some (keyText name ++ " = " ++ renderValue j ++ "\n")

/-- A header with the values of its table; none if the table holds only tables. -/
def tableBlock (path : List String) (fields : List (String × Json)) : List String :=
  let lines := valueLines fields
  if lines.isEmpty && !fields.isEmpty then []
  else ["[" ++ ".".intercalate (path.map keyText) ++ "]\n" ++ String.join lines]

mutual

/-- The blocks of the tables among the fields of the table at a path. -/
def blocks (path : List String) : List (String × Json) → List String
  | [] => []
  | (name, j) :: rest => blocksOf (path ++ [name]) j ++ blocks path rest

def blocksOf (path : List String) : Json → List String
  | .object fields => tableBlock path fields ++ blocks path fields
  | _ => []

end

/-- The text of an object. -/
def render : Json → String
  | .object fields =>
    let lines := valueLines fields
    let top := if lines.isEmpty then [] else [String.join lines]
    "\n".intercalate (top ++ blocks [] fields)
  | _ => ""

end TangledGraph.Toml
