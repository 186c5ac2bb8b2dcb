/-!
# The ChaCha12 generator

A seeded source of 32-bit words: the keystream of ChaCha with twelve rounds, a
64-bit block counter and a nonce of zero. The key is drawn from the seed by a
small permuted congruential generator, one key word a step.
-/
namespace TangledGraph.ChaCha

def rotateLeft (x n : UInt32) : UInt32 := (x <<< n) ||| (x >>> (32 - n))

def rotateRight (x n : UInt32) : UInt32 := (x >>> n) ||| (x <<< ((32 - n) % 32))

/-- The sixteen words that a block is computed from, and the block itself. -/
abbrev Block := Vector UInt32 16

abbrev Key := Vector UInt32 8

def quarterRound (v : Block) (a b c d : Fin 16) : Block :=
  let v := v.set a (v[a] + v[b])
  let v := v.set d (rotateLeft (v[d] ^^^ v[a]) 16)
  let v := v.set c (v[c] + v[d])
  let v := v.set b (rotateLeft (v[b] ^^^ v[c]) 12)
  let v := v.set a (v[a] + v[b])
  let v := v.set d (rotateLeft (v[d] ^^^ v[a]) 8)
  let v := v.set c (v[c] + v[d])
  v.set b (rotateLeft (v[b] ^^^ v[c]) 7)

/-- One round on the columns and one on the diagonals. -/
def doubleRound (v : Block) : Block :=
  let v := quarterRound v 0 4 8 12
  let v := quarterRound v 1 5 9 13
  let v := quarterRound v 2 6 10 14
  let v := quarterRound v 3 7 11 15
  let v := quarterRound v 0 5 10 15
  let v := quarterRound v 1 6 11 12
  let v := quarterRound v 2 7 8 13
  quarterRound v 3 4 9 14

def initial (key : Key) (counter : UInt64) : Block :=
  #v[0x61707865, 0x3320646e, 0x79622d32, 0x6b206574,
     key[0], key[1], key[2], key[3], key[4], key[5], key[6], key[7],
     counter.toUInt32, (counter >>> 32).toUInt32, 0, 0]

/-- The keystream words of one block. -/
def block (key : Key) (counter : UInt64) : Block :=
  let start := initial key counter
  let mixed := Nat.repeat doubleRound 6 start
  Vector.zipWith (· + ·) mixed start

/-- One step of the key generator: its next state and the word it gives. -/
def keyStep (state : UInt64) : UInt64 × UInt32 :=
  let state := state * 6364136223846793005 + 11634580027462260723
  let mixed := (((state >>> 18) ^^^ state) >>> 27).toUInt32
  (state, rotateRight mixed (state >>> 59).toUInt32)

/-- The first `n` key words from a state. -/
def keyWords : Nat → UInt64 → List UInt32
  | 0, _ => []
  | n + 1, state => let (state, word) := keyStep state; word :: keyWords n state

theorem length_keyWords (n : Nat) (state : UInt64) : (keyWords n state).length = n := by
  induction n generalizing state with
  | zero => rfl
  | succ n ih => simp [keyWords, ih]

def keyOfSeed (seed : UInt64) : Key :=
  ⟨(keyWords 8 seed).toArray, by simp [length_keyWords]⟩

/-- A place in a keystream: the words of the current block and how many of them
are used up. -/
structure Generator where
  key : Key
  /-- The number of the block after the current one. -/
  counter : UInt64
  words : Block
  used : Nat
  deriving Repr

namespace Generator

def ofSeed (seed : UInt64) : Generator :=
  let key := keyOfSeed seed
  ⟨key, 1, block key 0, 0⟩

/-- The next word of the keystream. -/
def next (g : Generator) : UInt32 × Generator :=
  if h : g.used < 16 then
    (g.words[g.used], { g with used := g.used + 1 })
  else
    let words := block g.key g.counter
    (words[0], { g with counter := g.counter + 1, words := words, used := 1 })

end Generator

end TangledGraph.ChaCha
