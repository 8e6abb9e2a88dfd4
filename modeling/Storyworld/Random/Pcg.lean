import Storyworld.Random.Source

namespace Storyworld

/-!
# A permuted congruential generator

The state is a 64-bit word that steps by multiplying and adding; the word given out
is a rotation of bits of the state before the step.
-/

/-- The state of the generator. -/
structure Pcg where
  state : UInt64
  deriving DecidableEq, Repr, Inhabited

namespace Pcg

def multiplier : UInt64 := 6364136223846793005

/-- What is added to the state. Being odd, it lets the state run through all values. -/
def increment : UInt64 := 1442695040888963407

def step (g : Pcg) : Pcg := ⟨g.state * multiplier + increment⟩

/-- The bits of a word moved to the right, those that fall out coming in at the left. -/
def rotateRight (word : UInt32) (count : UInt32) : UInt32 :=
  word >>> count ||| word <<< ((32 - count) % 32)

/-- The word given out in a state. -/
def output (g : Pcg) : UInt32 :=
  rotateRight (((g.state >>> 18) ^^^ g.state) >>> 27).toUInt32 (g.state >>> 59).toUInt32

/-- The generator for a seed: the seed is added between two steps from zero. -/
def ofSeed (seed : UInt64) : Pcg := step ⟨(step ⟨0⟩).state + seed⟩

instance : RandomSource Pcg := ⟨fun g => (g.output, g.step)⟩

end Pcg

end Storyworld
