import BlockCoding.Single.Bounds

/-!
# Stage/Point — positions on the stage, its edges and contacts

The stage is the square from 0 to 100 on both axes, and the avatar keeps a margin of 10 from every
side.  Distances are Euclidean; every operation is rounded to single precision on its own.
-/

namespace BlockCoding

/-- A position or a direction on the stage. -/
structure Point where
  x : Float32
  y : Float32
  deriving Repr, BEq

namespace Point

/-- The Euclidean distance. -/
def distance (a b : Point) : Float32 :=
  let dx := a.x - b.x
  let dy := a.y - b.y
  (dx * dx + dy * dy).sqrt

/-- The point at `direction` times `length` from `a`. -/
def shift (a direction : Point) (length : Float32) : Point :=
  ⟨a.x + direction.x * length, a.y + direction.y * length⟩

end Point

namespace Stage

/-- The least coordinate of the band the avatar keeps to. -/
def bandMin : Float32 := 10

/-- The greatest coordinate of the band the avatar keeps to. -/
def bandMax : Float32 := 100 - 10

/-- How near a star or a storm is touched. -/
def contactRadius : Float32 := 10

/-- Whether a coordinate is outside the band. -/
def outsideBand (v : Float32) : Bool := bandMax < v || v < bandMin

/-- A coordinate put back onto the margin that it crossed. -/
def clampToBand (v : Float32) : Float32 := Single.clamp bandMin bandMax v

/-- The axes on which a proposed position left the band. -/
structure EdgeHit where
  x : Bool
  y : Bool
  deriving DecidableEq, Repr

/-- Whether an axis was hit. -/
def EdgeHit.any (hit : EdgeHit) : Bool := hit.x || hit.y

/-- Holds a proposed position against the band. -/
def edgeHit (pos : Point) : EdgeHit := ⟨outsideBand pos.x, outsideBand pos.y⟩

/-- Turns around the components of a heading on the axes that were hit. -/
def reflect (heading : Point) (hit : EdgeHit) : Point :=
  ⟨if hit.x then -heading.x else heading.x, if hit.y then -heading.y else heading.y⟩

/-- Puts a proposed position back onto the margins on the axes that were hit. -/
def clampHit (pos : Point) (hit : EdgeHit) : Point :=
  ⟨if hit.x then clampToBand pos.x else pos.x, if hit.y then clampToBand pos.y else pos.y⟩

/-- Whether two points are closer than `radius`. -/
def inContact (a b : Point) (radius : Float32) : Bool := a.distance b < radius

/-- The index of the first of the `hazards` that is touched. -/
def firstContact? (pos : Point) (hazards : List Point) (radius : Float32) : Option Nat :=
  hazards.findIdx? fun hazard => inContact pos hazard radius

end Stage

end BlockCoding
