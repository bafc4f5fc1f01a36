/-!
# Random — seeded random draws

Everything random is drawn from a `RandomSource`: a state that gives one 32-bit word after another.
`Pcg` is the permuted congruential generator that sessions use; the draws are defined for any
source.
-/

namespace BlockCoding

/-- A state that gives one word after another. -/
class RandomSource (σ : Type) where
  nextWord : σ → UInt32 × σ

namespace RandomSource

variable {σ : Type} [RandomSource σ]

/-- A number from 0 to 1, 1 excluded: the upper 24 bits of a word, scaled by `2^-24`. -/
def unit (source : σ) : Float32 × σ :=
  let (word, source) := nextWord source
  ((word >>> 8).toFloat32 * Float32.ofBits 0x33800000, source)

/-- The upper and the lower word of the product of two words. -/
def wideProduct (a b : UInt32) : UInt32 × UInt32 :=
  let product := a.toUInt64 * b.toUInt64
  ((product >>> 32).toUInt32, product.toUInt32)

/-- A number below `n`: the upper word of a word times `n`.  Where the lower word is so large that
a further digit could carry into the upper one, a second word decides. -/
def below (n : UInt32) (source : σ) : UInt32 × σ :=
  let (word, source) := nextWord source
  let (high, low) := wideProduct word n
  if 0 - n < low then
    let (word, source) := nextWord source
    let carry := (wideProduct word n).1
    (if low + carry < low then high + 1 else high, source)
  else (high, source)

end RandomSource

/-- There is no number below a bound that is not positive. -/
inductive RandomFault where
  | emptyRange
  deriving DecidableEq, Repr

/-- A number from 0 to `n`, `n` excluded, for any bound. -/
def RandomSource.below? {σ : Type} [RandomSource σ] (n : Int32) (source : σ) :
    Except RandomFault (Int32 × σ) :=
  if n ≤ 0 then .error .emptyRange
  else
    let (value, source) := below n.toUInt32 source
    .ok (value.toInt32, source)

/-! ## The permuted congruential generator -/

/-- A linear congruential state and its increment. -/
structure Pcg where
  state : UInt64
  increment : UInt64
  deriving DecidableEq, Repr

namespace Pcg

/-- The factor by which the state grows in each step. -/
def multiplier : UInt64 := 6364136223846793005

/-- Rotates a word to the right by the lower five bits of `amount`. -/
def rotateRight (word amount : UInt32) : UInt32 :=
  (word >>> amount) ||| (word <<< (0 - amount))

/-- The word that a state gives: its upper bits are folded and then rotated by the topmost five. -/
def output (state : UInt64) : UInt32 :=
  rotateRight (((state >>> 18 ^^^ state) >>> 27).toUInt32) (state >>> 59).toUInt32

/-- One step of the congruence. -/
def advance (g : Pcg) : Pcg := { g with state := g.state * multiplier + g.increment }

/-- The generator with a given state and an odd increment, ready for its first word. -/
def ofState (state increment : UInt64) : Pcg :=
  let increment := increment ||| 1
  advance ⟨state + increment, increment⟩

/-- One step of the congruence that spreads a seed. -/
def spread (s : UInt64) : UInt64 := s * multiplier + 11634580027462260723

/-- The generator of a seed: four words of another congruence are its state and its increment. -/
def ofSeed (seed : UInt64) : Pcg :=
  let s₀ := spread seed
  let s₁ := spread s₀
  let s₂ := spread s₁
  let s₃ := spread s₂
  let join (low high : UInt64) : UInt64 :=
    (output low).toUInt64 ||| ((output high).toUInt64 <<< 32)
  ofState (join s₀ s₁) (join s₂ s₃)

end Pcg

/-- A generator gives its words one after the other. -/
instance : RandomSource Pcg where
  nextWord g := (Pcg.output g.state, g.advance)

/-- The seed that everything random comes from. -/
structure Seed where
  seed : UInt64
  deriving DecidableEq, Repr

/-- A fresh generator; the same seed gives the same words every time. -/
def Seed.generator (s : Seed) : Pcg := .ofSeed s.seed

end BlockCoding
