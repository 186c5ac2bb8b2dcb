import TangledGraph.Random.ChaCha

/-!
# Random streams

A stream gives 64-bit words for ever. It is either a seeded keystream or a
script: a list of words, followed by the words of SplitMix64 from a state.
Every finite beginning is the beginning of some script, so a statement about
all streams is one about all draws.
-/
namespace TangledGraph

/-- One step of SplitMix64: the next state and the word it gives. -/
def splitMix (state : UInt64) : UInt64 × UInt64 :=
  let state := state + 0x9E3779B97F4A7C15
  let z := (state ^^^ (state >>> 30)) * 0xBF58476D1CE4E5B9
  let z := (z ^^^ (z >>> 27)) * 0x94D049BB133111EB
  (state, z ^^^ (z >>> 31))

/-- A source of random words. -/
inductive Stream
  | seeded (generator : ChaCha.Generator)
  | scripted (words : List UInt64) (state : UInt64)
  deriving Repr

namespace Stream

def ofSeed (seed : UInt64) : Stream := seeded (ChaCha.Generator.ofSeed seed)

/-- The listed words, then SplitMix64 from zero. -/
def ofScript (words : List UInt64) : Stream := scripted words 0

/-- A 64-bit word; a keystream gives its low half first. -/
def next64 : Stream → UInt64 × Stream
  | seeded g =>
    let (low, g) := g.next
    let (high, g) := g.next
    (low.toUInt64 ||| (high.toUInt64 <<< 32), seeded g)
  | scripted [] state => let (state, word) := splitMix state; (word, scripted [] state)
  | scripted (word :: rest) state => (word, scripted rest state)

/-- A 32-bit word: one word of a keystream, or the low half of a script's word. -/
def next32 : Stream → UInt32 × Stream
  | seeded g => let (word, g) := g.next; (word, seeded g)
  | s@(scripted ..) => let (word, s) := s.next64; (word.toUInt32, s)

@[simp] theorem next64_scripted_cons (word : UInt64) (rest : List UInt64) (state : UInt64) :
    (scripted (word :: rest) state).next64 = (word, scripted rest state) := rfl

@[simp] theorem next32_scripted_cons (word : UInt64) (rest : List UInt64) (state : UInt64) :
    (scripted (word :: rest) state).next32 = (word.toUInt32, scripted rest state) := rfl

end Stream

end TangledGraph
