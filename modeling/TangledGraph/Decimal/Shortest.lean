/-!
# Shortest decimal digits

A finite float stands for an interval of reals that round to it. Its shortest
decimal form is the point of that interval on the coarsest grid of powers of
ten that has one, and the nearer of two such points.
-/
namespace TangledGraph

/-- The number `digits * 10 ^ exponent`. -/
structure Decimal where
  digits : Nat
  exponent : Int
  deriving DecidableEq, Repr

namespace Decimal

/-- The number `significand * 2 ^ exponent`. -/
structure Binary where
  significand : Nat
  exponent : Int
  deriving DecidableEq, Repr

/-- The magnitude of a finite float. -/
def Binary.ofFloat (x : Float) : Binary :=
  let bits : Nat := x.toBits.toNat
  let field : Nat := bits / Nat.pow 2 52 % Nat.pow 2 11
  let fraction : Nat := bits % Nat.pow 2 52
  if field = 0 then ⟨fraction, -1074⟩ else ⟨Nat.pow 2 52 + fraction, (field : Int) - 1075⟩

def negative (x : Float) : Bool := x.toBits >>> 63 != 0

/-- The numerator of `n * 2 ^ e * 10 ^ (-p)` over `denominator e p`. -/
def numerator (n : Nat) (e p : Int) : Nat := n * Nat.pow 2 e.toNat * Nat.pow 10 (-p).toNat

def denominator (e p : Int) : Nat := Nat.pow 2 (-e).toNat * Nat.pow 10 p.toNat

/-- The point on the grid of `10 ^ p` that rounds to `b`, the nearer of two.
The interval is measured in quarters of the spacing of floats; it is closed
when the significand is even, and its lower half is shorter at powers of two. -/
def gridPoint? (b : Binary) (p : Int) : Option Nat :=
  let quarter := b.exponent - 2
  let unit := denominator quarter p
  let scaled := fun n => numerator n quarter p
  let gap := if b.significand = Nat.pow 2 52 ∧ b.exponent ≠ -1074 then 1 else 2
  let low := scaled (4 * b.significand - gap)
  let value := scaled (4 * b.significand)
  let high := scaled (4 * b.significand + 2)
  let inside := fun point =>
    if b.significand % 2 = 0 then low ≤ point * unit ∧ point * unit ≤ high
    else low < point * unit ∧ point * unit < high
  let floor := value / unit
  let nearer := if 2 * value < (2 * floor + 1) * unit then floor else floor + 1
  let farther := 2 * floor + 1 - nearer
  if inside nearer then some nearer
  else if inside farther then some farther
  else none

/-- The finest grid that a float needs. -/
def finestGrid : Int := -324

/-- Tries the grids from `finestGrid + steps` down to the finest. -/
def coarsest (b : Binary) : Nat → Decimal
  | 0 => ⟨(gridPoint? b finestGrid).getD 0, finestGrid⟩
  | steps + 1 =>
    let p := finestGrid + (steps + 1 : Nat)
    match gridPoint? b p with
    | some n => ⟨n, p⟩
    | none => coarsest b steps

/-- The shortest decimal that reads back as the magnitude of a finite float. -/
def shortest (x : Float) : Decimal :=
  let b := Binary.ofFloat x
  if b.significand = 0 then ⟨0, 0⟩ else coarsest b 633

end Decimal

end TangledGraph
