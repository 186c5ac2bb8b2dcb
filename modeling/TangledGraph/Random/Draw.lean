import TangledGraph.Fault
import TangledGraph.Random.Stream

/-!
# Draws

Computations that read random words. A draw runs on a stream and gives a
result with the stream after it, or a fault. Ranged draws reject words that
would favour some results; such loops end only by chance, so they carry a
limit on their rounds, and running into it is a fault of its own.
-/
namespace TangledGraph

abbrev Draw := StateT Stream (Except Fault)

namespace Draw

variable {α σ : Type}

/-- How many rounds a loop that ends by chance may take. -/
def roundLimit : Nat := Nat.pow 2 62

/-- Repeats a round until it gives a result, at most `fuel` times. -/
def iterate (round : σ → Draw (σ ⊕ α)) : Nat → σ → Draw α
  | 0, _ => throw .endless
  | fuel + 1, state => do
    match ← round state with
    | .inl state => iterate round fuel state
    | .inr result => pure result

def word64 : Draw UInt64 := fun s => .ok s.next64

def word32 : Draw UInt32 := fun s => .ok s.next32

/-- The greatest low half that a product of a word and `range` may have: below
it every result belongs to equally many words. -/
def acceptance (bits range : Nat) : Nat := (range <<< (bits - (range.log2 + 1))) - 1

/-- One round of a draw below `range`: the high half of the product of a word
and the range, if the low half is accepted. -/
def belowRound (bits range : Nat) (word : Draw Nat) : Unit → Draw (Unit ⊕ Nat) := fun _ => do
  let product := (← word) * range
  if product % Nat.pow 2 bits ≤ acceptance bits range then
    pure (.inr (product >>> bits))
  else
    pure (.inl ())

def below (bits range : Nat) (word : Draw Nat) : Draw Nat :=
  if range = 0 then throw .emptyRange
  else iterate (belowRound bits range word) roundLimit ()

/-- A number below `n` from 64-bit words. -/
def below64 (n : Nat) : Draw Nat := below 64 n (UInt64.toNat <$> word64)

/-- A number below `n` from 32-bit words. -/
def below32 (n : Nat) : Draw Nat := below 32 n (UInt32.toNat <$> word32)

/-- A number from `low` to `high`, both included. -/
def between (low high : Nat) : Draw Nat :=
  if high < low then throw .emptyRange
  else (low + ·) <$> below64 (high - low + 1)

/-- The spacing of unit draws, two to the power of minus 53. -/
def unitStep : Float := Float.ofBits 0x3CA0000000000000

/-- A float from zero up to one, one excluded. -/
def unit : Draw Float := do return ((← word64) >>> 11).toFloat * unitStep

/-- True with the given probability. -/
def chance (p : Float) : Draw Bool := do return (← unit) < p

/-- Draws only if the condition holds, and is false otherwise. -/
def chanceWhen (condition : Bool) (p : Float) : Draw Bool :=
  if condition then chance p else pure false

/-- The highest bit of a word. -/
def coin : Draw Bool := do return (← word32) >>> 31 != 0

/-- A float from minus one up to one, one excluded. -/
def symmetric : Draw Float := do
  let fraction := Float.ofBits (((← word64) >>> 12) ||| 0x3FF0000000000000)
  return (fraction - 1.0) * 2.0 + (-1.0)

/-- An element of a list; nothing is drawn for the empty list. -/
def choose (xs : List α) : Draw (Option α) :=
  if xs.isEmpty then pure none
  else do return xs[← below32 xs.length]?

/-- Swaps every place from `i` down to the second with one at or before it. -/
def shuffleFrom : Nat → Array α → Draw (Array α)
  | 0, xs => pure xs
  | i + 1, xs => do
    let j ← below32 (i + 2)
    shuffleFrom i (xs.swapIfInBounds (i + 1) j)

def shuffle (xs : List α) : Draw (List α) :=
  Array.toList <$> shuffleFrom (xs.length - 1) xs.toArray

/-- Two different numbers below `n`, for `n` at least two. -/
def distinctPair (n : Nat) : Draw (Nat × Nat) := do
  let first ← below32 (n - 1)
  let second ← below32 n
  return if second = first then (n - 1, first) else (first, second)

end Draw

end TangledGraph
