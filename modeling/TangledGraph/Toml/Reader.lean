import TangledGraph.Toml.DateTime
import TangledGraph.Toml.Table

/-!
# Reading TOML text

Statements line by line: headers of tables, headers of elements of arrays of
tables, and keys with values. Dates and times are read as the text that shows
them.
-/
namespace TangledGraph.Toml

open Text Text.Reader

def isBlank (c : Char) : Bool := c = ' ' || c = '\t'

def blanks : Reader Unit := skipWhile isBlank

/-- Control characters other than the tabulator stand nowhere in a text. -/
def isControl (c : Char) : Bool := (c.toNat < 0x20 && c != '\t') || c.toNat = 0x7F

/-- Takes the end of a line, if it comes next. -/
def tryNewline : Reader Bool := do
  if ← tryChar '\n' then pure true
  else tryWord ['\r', '\n']

/-- Skips a comment, if one comes next. -/
def comment : Reader Unit := do
  if ← tryChar '#' then skipWhile fun c => !isControl c

/-- Skips blanks, comments and ends of lines. -/
def filler : Nat → Reader Unit
  | 0 => failure
  | fuel + 1 => do
    blanks
    comment
    if ← tryNewline then filler fuel

/-- The end of a statement: a comment at most, and the end of the line. -/
def lineEnd : Reader Unit := do
  blanks
  comment
  if !(← tryNewline) && (← peek).isSome then failure

/-- The character with a given number of hexadecimal digits. -/
def codePoint (digits : Nat) : Reader Char := do
  match (hexValue? (← take digits)).bind charOf? with
  | some c => pure c
  | none => failure

def escaped : Char → Reader Char
  | 'b' => pure '\x08'
  | 't' => pure '\t'
  | 'n' => pure '\n'
  | 'f' => pure '\x0c'
  | 'r' => pure '\r'
  | 'e' => pure '\x1b'
  | '"' => pure '"'
  | '\\' => pure '\\'
  | 'x' => codePoint 2
  | 'u' => codePoint 4
  | 'U' => codePoint 8
  | _ => failure

/-- The rest of a string in double quotes, with what was read in reverse. -/
def basicTail : Nat → List Char → Reader String
  | 0, _ => failure
  | fuel + 1, seen => do
    match ← next with
    | '"' => pure (String.ofList seen.reverse)
    | '\\' => basicTail fuel ((← escaped (← next)) :: seen)
    | c => if isControl c then failure else basicTail fuel (c :: seen)

/-- The rest of a string in single quotes. -/
def literalTail : Reader String := do
  let body ← takeWhile fun c => c != '\'' && !isControl c
  char '\''
  pure (String.ofList body)

/-- The quotes after the end mark of a string over several lines: up to two of
them belong to the string. -/
def closingQuotes (quote : Char) (seen : List Char) : Reader String := do
  let first ← tryChar quote
  let second ← if first then tryChar quote else pure false
  let extra := (if first then 1 else 0) + (if second then 1 else 0)
  pure (String.ofList (seen.reverse ++ List.replicate extra quote))

/-- Skips blanks and ends of lines. -/
def blankLines : Nat → Reader Unit
  | 0 => failure
  | fuel + 1 => do
    blanks
    if ← tryNewline then blankLines fuel

/-- The rest of a string over several lines, which keeps the ends of its lines.
A backslash at the end of a line skips to the next character that is not blank. -/
def longTail (quote : Char) : Nat → List Char → Reader String
  | 0, _ => failure
  | fuel + 1, seen => do
    if ← tryWord [quote, quote, quote] then closingQuotes quote seen
    else if ← tryChar '\n' then longTail quote fuel ('\n' :: seen)
    else if ← tryWord ['\r', '\n'] then longTail quote fuel ('\n' :: '\r' :: seen)
    else
      match ← next with
      | '\\' =>
        if quote = '\'' then longTail quote fuel ('\\' :: seen)
        else
          let mark ← peek
          if mark.any fun c => isBlank c || c = '\n' || c = '\r' then
            blanks
            if ← tryNewline then
              blankLines fuel
              longTail quote fuel seen
            else failure
          else longTail quote fuel ((← escaped (← next)) :: seen)
      | c => if isControl c then failure else longTail quote fuel (c :: seen)

/-- A string in the given kind of quotes, short or over several lines. -/
def quoted (fuel : Nat) (quote : Char) (short : Reader String) : Reader String := do
  if ← tryWord [quote, quote, quote] then
    let _ ← tryNewline
    longTail quote fuel []
  else
    char quote
    short

def isKeyChar (c : Char) : Bool :=
  ('a' ≤ c && c ≤ 'z') || ('A' ≤ c && c ≤ 'Z') || ('0' ≤ c && c ≤ '9') || c = '_' || c = '-'

/-- One part of a key. -/
def keyPart (fuel : Nat) : Reader String := do
  match ← peek with
  | some '"' => let _ ← next; basicTail fuel []
  | some '\'' => let _ ← next; literalTail
  | _ =>
    let name ← takeWhile isKeyChar
    if name.isEmpty then failure else pure (String.ofList name)

/-- The parts of a dotted key from one on, and the blanks after it. -/
def keyParts : Nat → Reader (List String)
  | 0 => failure
  | fuel + 1 => do
    blanks
    let first ← keyPart fuel
    blanks
    if ← tryChar '.' then return first :: (← keyParts fuel) else pure [first]

/-- How deep arrays and inline tables may be nested, and how many parts a key
may have. -/
def depthLimit : Nat := 80

/-- A dotted key. -/
def key (fuel : Nat) : Reader (List String) := do
  let path ← keyParts fuel
  if path.length ≤ depthLimit then pure path else failure

/-- Digits without the underscores between them; an underscore stands between
two digits. -/
def groupedDigits (isDigit : Char → Bool) (text : List Char) : Option (List Char) :=
  let groups := text.splitOn '_'
  if groups.all fun g => !g.isEmpty && g.all isDigit then some groups.flatten else none

/-- Digits of a whole number: no zero before others. -/
def wholeDigits (text : List Char) : Option (List Char) := do
  let digits ← groupedDigits Decimal.isDigit text
  if digits.length > 1 && digits.head? = some '0' then none else some digits

def inRange (n : Int) : Option Json :=
  if -Nat.pow 2 63 ≤ n ∧ n < Nat.pow 2 63 then some (.integer n) else none

def digitIn (base : Nat) (c : Char) : Option Nat :=
  (hexDigit? c).bind fun d => if d < base then some d else none

/-- A whole number after the mark of its base. -/
def based (base : Nat) (text : List Char) : Option Json := do
  let digits ← groupedDigits (fun c => (digitIn base c).isSome) text
  inRange (Decimal.ofDigits base (digitIn base) digits)

/-- A finite float. -/
def finite (x : Float) : Option Json := if x.isFinite then some (.real x) else none

/-- A number that has a point or an exponent; it may not be beyond all floats. -/
def fractional (minus : Bool) (body : List Char) : Option Json := do
  let whole ← wholeDigits (body.takeWhile fun c => Decimal.isDigit c || c = '_')
  let rest := body.dropWhile fun c => Decimal.isDigit c || c = '_'
  let (fraction, rest) ← match rest with
    | '.' :: rest => do
      let part := rest.takeWhile fun c => Decimal.isDigit c || c = '_'
      pure (← groupedDigits Decimal.isDigit part,
        rest.dropWhile fun c => Decimal.isDigit c || c = '_')
    | rest => pure ([], rest)
  match rest with
  | [] => finite (Decimal.ofParts minus whole fraction 0)
  | mark :: power =>
    if mark != 'e' && mark != 'E' then none
    else
      let (down, digits) := Decimal.takeSign power
      let n : Int := Decimal.natural (← groupedDigits Decimal.isDigit digits)
      finite (Decimal.ofParts minus whole fraction (if down then -n else n))

/-- A decimal number. -/
def decimal (text : List Char) : Option Json :=
  let (minus, body) := Decimal.takeSign text
  if body = "inf".toList then some (.real (if minus then -(1.0 / 0.0) else 1.0 / 0.0))
  else if body = "nan".toList then some (.real (0.0 / 0.0))
  else if body.all fun c => Decimal.isDigit c || c = '_' then do
    let n : Int := Decimal.natural (← wholeDigits body)
    inRange (if minus then -n else n)
  else fractional minus body

def isTokenChar (c : Char) : Bool := isKeyChar c || c = '+' || c = '.'

def number : Reader Json := do
  let text ← takeWhile isTokenChar
  let j? := match text with
    | '0' :: 'x' :: digits => based 16 digits
    | '0' :: 'o' :: digits => based 8 digits
    | '0' :: 'b' :: digits => based 2 digits
    | _ => decimal text
  match j? with
  | some j => pure j
  | none => failure

/-- A date, a time or a number. -/
def token : Reader Json := do
  match ← DateTime.tryReader with
  | some moment => pure (.string moment.text)
  | none => number

mutual

/-- A value with room for the given depth. -/
def value : Nat → Nat → Reader Json
  | 0, _ => failure
  | fuel + 1, room => do
    match ← peek, room with
    | some '"', _ => return .string (← quoted fuel '"' (basicTail fuel []))
    | some '\'', _ => return .string (← quoted fuel '\'' literalTail)
    | some '[', room + 1 => let _ ← next; items fuel room []
    | some '\x7b', room + 1 => let _ ← next; pairs fuel room []
    | some 't', _ => word "true".toList; pure (.bool true)
    | some 'f', _ => word "false".toList; pure (.bool false)
    | _, _ => token

/-- The items of an array from one on, with those before it in reverse. -/
def items : Nat → Nat → List Json → Reader Json
  | 0, _, _ => failure
  | fuel + 1, room, seen => do
    filler fuel
    if ← tryChar ']' then pure (.array seen.reverse)
    else
      let item ← value fuel room
      filler fuel
      if ← tryChar ',' then items fuel room (item :: seen)
      else char ']'; pure (.array (item :: seen).reverse)

/-- The entries of an inline table from one on, with those before it. -/
def pairs : Nat → Nat → Entries → Reader Json
  | 0, _, _ => failure
  | fuel + 1, room, seen => do
    filler fuel
    if ← tryChar '\x7d' then pure (.object (entriesToJson seen))
    else
      let path ← key fuel
      filler fuel
      char '='
      filler fuel
      let j ← value fuel room
      filler fuel
      match Entries.setValue j path seen with
      | none => failure
      | some entries =>
        if ← tryChar ',' then pairs fuel room entries
        else char '\x7d'; pure (.object (entriesToJson entries))

end

/-- A statement applied to the current table and all entries. -/
def statement (fuel : Nat) (table : List String) (entries : Entries) :
    Reader (List String × Entries) := do
  if ← tryWord ['[', '['] then
    let path ← key fuel
    word [']', ']']
    lineEnd
    match Entries.openElement path entries with
    | some entries => pure (path, entries)
    | none => failure
  else if ← tryChar '[' then
    let path ← key fuel
    char ']'
    lineEnd
    match Entries.openTable path entries with
    | some entries => pure (path, entries)
    | none => failure
  else
    let path ← key fuel
    char '='
    blanks
    let j ← value fuel depthLimit
    lineEnd
    match Entries.setUnder table path j entries with
    | some entries => pure (table, entries)
    | none => failure

def statements : Nat → List String → Entries → Reader Json
  | 0, _, _ => failure
  | fuel + 1, table, entries => do
    filler fuel
    if (← peek).isNone then pure (.object (entriesToJson entries))
    else
      let (table, entries) ← statement fuel table entries
      statements fuel table entries

/-- The object that a text writes. -/
def parse (text : String) : Option Json :=
  let chars := text.toList
  let chars := if chars.head? = some '\ufeff' then chars.drop 1 else chars
  whole (statements (chars.length + 2) [] []) chars

end TangledGraph.Toml
