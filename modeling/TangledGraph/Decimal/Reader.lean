/-!
# Reading decimals

Digits and signs as they occur in numerals, and the float nearest to a decimal.
-/
namespace TangledGraph.Decimal

def digit? (c : Char) : Option Nat :=
  if '0' ≤ c ∧ c ≤ '9' then some (c.toNat - '0'.toNat) else none

def isDigit (c : Char) : Bool := (digit? c).isSome

/-- The number that digits write in a base; other characters count as zero. -/
def ofDigits (base : Nat) (value? : Char → Option Nat) (digits : List Char) : Nat :=
  digits.foldl (fun n c => n * base + (value? c).getD 0) 0

def natural (digits : List Char) : Nat := ofDigits 10 digit? digits

/-- The float nearest to `mantissa * 10 ^ exponent`. A number beyond all floats
is infinite and one below them is zero, whatever the size of the exponent. -/
def nearest (mantissa : Nat) (exponent : Int) : Float :=
  let place := (toString mantissa).length + exponent
  if mantissa = 0 ∨ place < -400 then 0.0
  else if 400 < place then 1.0 / 0.0
  else Float.ofScientific mantissa (exponent < 0) exponent.natAbs

/-- A numeral with a sign: `digits.fraction` times ten to the power `exponent`. -/
def ofParts (minus : Bool) (digits fraction : List Char) (exponent : Int) : Float :=
  let x := nearest (natural (digits ++ fraction)) (exponent - fraction.length)
  if minus then -x else x

/-- Splits a sign off a numeral. -/
def takeSign : List Char → Bool × List Char
  | '-' :: rest => (true, rest)
  | '+' :: rest => (false, rest)
  | rest => (false, rest)

/-- A whole number with an optional sign, and nothing else. -/
def integer? (text : List Char) : Option Int :=
  let (minus, digits) := takeSign text
  if digits.isEmpty || !digits.all isDigit then none
  else
    let n : Int := natural digits
    some (if minus then -n else n)

/-- A number below two to the power of 64, with a plus sign at most. -/
def unsigned64? (text : List Char) : Option Nat :=
  if text.head? = some '-' then none
  else (integer? text).bind fun n => if n < Nat.pow 2 64 then some n.toNat else none

/-- A whole number that fits 64 bits with a sign. -/
def signed64? (text : List Char) : Option Int :=
  (integer? text).bind fun n => if -Nat.pow 2 63 ≤ n ∧ n < Nat.pow 2 63 then some n else none

/-- A numeral: digits with an optional point and exponent, or a name of an
infinity or of the value that is not a number, in any letter case. -/
def float? (text : List Char) : Option Float :=
  let (minus, body) := takeSign text
  let name := String.ofList (body.map Char.toLower)
  let sign := fun x : Float => if minus then -x else x
  if name = "inf" || name = "infinity" then some (sign (1.0 / 0.0))
  else if name = "nan" then some (0.0 / 0.0)
  else
    let digits := body.takeWhile isDigit
    let rest := body.dropWhile isDigit
    let (fraction, rest) := match rest with
      | '.' :: rest => (rest.takeWhile isDigit, rest.dropWhile isDigit)
      | rest => ([], rest)
    if digits.isEmpty && fraction.isEmpty then none
    else match rest with
      | [] => some (ofParts minus digits fraction 0)
      | c :: power =>
        if c = 'e' || c = 'E' then
          (integer? power).map (ofParts minus digits fraction)
        else none

end TangledGraph.Decimal
