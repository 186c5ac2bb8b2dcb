/-!
# Readers of text

A reader takes characters from the front of a text, or fails. Readers of whole
documents are built from the few here.
-/
namespace TangledGraph.Text

abbrev Reader := StateT (List Char) Option

namespace Reader

variable {α : Type}

def peek : Reader (Option Char) := fun text => some (text.head?, text)

/-- All that is still to be read. -/
def remaining : Reader (List Char) := fun text => some (text, text)

/-- The next character; fails at the end. -/
def next : Reader Char
  | [] => none
  | c :: rest => some (c, rest)

def takeWhile (p : Char → Bool) : Reader (List Char) := fun text =>
  some (text.takeWhile p, text.dropWhile p)

def skipWhile (p : Char → Bool) : Reader Unit := fun text => some ((), text.dropWhile p)

/-- Takes the next character if it is `c`. -/
def tryChar (c : Char) : Reader Bool
  | [] => some (false, [])
  | d :: rest => if d = c then some (true, rest) else some (false, d :: rest)

def char (c : Char) : Reader Unit
  | [] => none
  | d :: rest => if d = c then some ((), rest) else none

/-- Takes exactly the given characters if they come next. -/
def tryWord (word : List Char) : Reader Bool := fun text =>
  if word.isPrefixOf text then some (true, text.drop word.length) else some (false, text)

def word (word : List Char) : Reader Unit := do
  if ← tryWord word then pure () else failure

/-- Exactly `n` characters. -/
def take (n : Nat) : Reader (List Char) := fun text =>
  let taken := text.take n
  if taken.length < n then none else some (taken, text.drop n)

/-- Runs a reader that has to use up the whole text. -/
def whole (r : Reader α) (text : List Char) : Option α :=
  match r text with
  | some (a, []) => some a
  | _ => none

end Reader

def hexDigit? (c : Char) : Option Nat :=
  if '0' ≤ c ∧ c ≤ '9' then some (c.toNat - '0'.toNat)
  else if 'a' ≤ c ∧ c ≤ 'f' then some (c.toNat - 'a'.toNat + 10)
  else if 'A' ≤ c ∧ c ≤ 'F' then some (c.toNat - 'A'.toNat + 10)
  else none

/-- The value of hexadecimal digits, if all are. -/
def hexValue? (digits : List Char) : Option Nat :=
  digits.foldlM (fun n c => (hexDigit? c).map (n * 16 + ·)) 0

def isSurrogate (n : Nat) : Bool := 0xD800 ≤ n && n < 0xE000

/-- The character of a code point, if there is one. -/
def charOf? (n : Nat) : Option Char :=
  if n < 0x110000 && !isSurrogate n then some (Char.ofNat n) else none

def hexDigitChar (n : Nat) : Char :=
  if n < 10 then Char.ofNat ('0'.toNat + n) else Char.ofNat ('a'.toNat + n - 10)

/-- The last `width` hexadecimal digits of a number, in lower case. -/
def hexDigits : Nat → Nat → List Char
  | 0, _ => []
  | width + 1, n => hexDigits width (n / 16) ++ [hexDigitChar (n % 16)]

end TangledGraph.Text
