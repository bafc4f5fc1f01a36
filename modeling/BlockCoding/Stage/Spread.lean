import BlockCoding.Single.Bounds

/-!
# Stage/Spread — placing points at a distance from each other

A point is placed by drawing samples until one keeps the required distance from every point that is
already taken.  When the attempts run out, the sample that kept farthest from its nearest neighbour
is taken all the same and marked as not spaced.  The samples come from any state, and the distance
is any function to single-precision numbers.
-/

namespace BlockCoding

/-- How far apart points are to be, and how many samples each one may use. -/
structure Spacing where
  minDistance : Float32
  attempts : UInt32
  deriving Repr

/-- A point that was placed, and whether it keeps its distance. -/
structure Placement (α : Type) where
  point : α
  spaced : Bool
  deriving Repr

namespace Spread

variable {α σ : Type}

/-- The distance from a point to the nearest one that is taken, infinite if there is none. -/
def clearance (distance : α → α → Float32) (taken : List α) (point : α) : Float32 :=
  taken.foldl (fun nearest other => Single.smaller nearest (distance other point)) Single.infinity

/-- Draws up to `n` further samples for as long as the best one is too near; a later sample
replaces the best one only if it is farther away. -/
def improve (clear : α → Float32) (minDistance : Float32) (sample : σ → α × σ) :
    Nat → α → σ → α × σ
  | 0, best, source => (best, source)
  | n + 1, best, source =>
    if minDistance ≤ clear best then (best, source)
    else
      let (candidate, source) := sample source
      improve clear minDistance sample n
        (if clear best < clear candidate then candidate else best) source

/-- Places one point and takes it. -/
def placeOne (distance : α → α → Float32) (spacing : Spacing) (sample : σ → α × σ)
    (taken : List α) (source : σ) : Placement α × List α × σ :=
  let clear := clearance distance taken
  let (first, source) := sample source
  let (point, source) :=
    improve clear spacing.minDistance sample (spacing.attempts.toNat - 1) first source
  (⟨point, spacing.minDistance ≤ clear point⟩, taken ++ [point], source)

/-- Places `count` points one after the other, each away from those before it. -/
def place (distance : α → α → Float32) (spacing : Spacing) (sample : σ → α × σ) :
    Nat → List α → σ → List (Placement α) × List α × σ
  | 0, taken, source => ([], taken, source)
  | count + 1, taken, source =>
    let (placed, taken, source) := placeOne distance spacing sample taken source
    let (others, taken, source) := place distance spacing sample count taken source
    (placed :: others, taken, source)

end Spread

end BlockCoding
