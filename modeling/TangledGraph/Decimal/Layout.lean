import TangledGraph.Decimal.Shortest

/-!
# Layouts of decimals

How a float is written: plainly without an exponent, with a forced fractional
part, with an exponent where it is long, or with a fixed number of places.
-/
namespace TangledGraph.Decimal

/-- Digits with a point before the last `places` of them. -/
def pointed (digits places : Nat) : String :=
  if places = 0 then toString digits
  else
    let text := (toString digits).toList
    let text := List.replicate (places + 1 - text.length) '0' ++ text
    let whole := text.length - places
    String.ofList (text.take whole ++ '.' :: text.drop whole)

/-- A decimal without an exponent. -/
def positional (d : Decimal) : String :=
  pointed (d.digits * Nat.pow 10 d.exponent.toNat) (-d.exponent).toNat

/-- Writes a float with a given layout of its finite magnitudes. -/
def signed (layout : Float → String) (x : Float) : String :=
  if x.isNaN then "NaN"
  else (if negative x then "-" else "") ++ (if x.isInf then "inf" else layout x)

/-- The fewest digits that read back, never with an exponent. -/
def plain : Float → String := signed fun x => (shortest x).positional

/-- As `plain`, with `.0` after a whole number. -/
def fractional : Float → String := signed fun x =>
  let d := shortest x
  if 0 ≤ d.exponent then d.positional ++ ".0" else d.positional

/-- The fewest digits that read back: plain from `1e-5` up to `1e16`, with an
exponent elsewhere. -/
def compact : Float → String := signed fun x =>
  let d := shortest x
  let digits := toString d.digits
  let place := digits.length + d.exponent
  if d.digits = 0 then "0.0"
  else if -5 < place ∧ place ≤ 16 then
    if 0 ≤ d.exponent then d.positional ++ ".0" else d.positional
  else
    let stripped := (digits.toList.reverse.dropWhile (· = '0')).reverse
    let lead := String.ofList (stripped.take 1)
    let rest := String.ofList (stripped.drop 1)
    (if rest.isEmpty then lead else lead ++ "." ++ rest) ++ "e" ++ toString (place - 1)

/-- The quotient to the nearest whole number, a half to the even one. -/
def roundHalfEven (num den : Nat) : Nat :=
  let floor := num / den
  let rest := 2 * (num % den)
  if rest < den then floor
  else if den < rest then floor + 1
  else floor + floor % 2

/-- A float with a fixed number of places, a half to the even neighbour. -/
def fixed (places : Nat) : Float → String := signed fun x =>
  let b := Binary.ofFloat x
  let num := b.significand * Nat.pow 2 b.exponent.toNat * Nat.pow 10 places
  pointed (roundHalfEven num (Nat.pow 2 (-b.exponent).toNat)) places

end TangledGraph.Decimal
