import BlockCoding.Random
import BlockCoding.Stage.Point
import BlockCoding.Stage.Spread

/-!
# Stage/Sky — where the star and the storms of a flight are

A sky is rolled around an anchor, the avatar: first the star, then three storms, each kept away
from the anchor and from everything before it.
-/

namespace BlockCoding

/-- The positions of the star and of the storms. -/
structure Sky where
  goal : Point
  hazards : List Point
  deriving Repr, BEq

namespace Sky

/-- The distance that is kept, with fifteen samples for each point. -/
def spacing : Spacing := ⟨20, 15⟩

/-- The number of storms. -/
def hazardCount : Nat := 3

/-- A point whose coordinates are both from `least` to `least + span`; `x` is drawn first. -/
def sample {σ : Type} [RandomSource σ] (least span : Float32) (source : σ) : Point × σ :=
  let (x, source) := RandomSource.unit source
  let (y, source) := RandomSource.unit source
  (⟨least + x * span, least + y * span⟩, source)

/-- Rolls a sky around an anchor. -/
def roll {σ : Type} [RandomSource σ] (anchor : Point) (source : σ) : Sky × σ :=
  let (goal, taken, source) :=
    Spread.placeOne Point.distance spacing (sample 20 60) [anchor] source
  let (hazards, _, source) :=
    Spread.place Point.distance spacing (sample 15 70) hazardCount taken source
  (⟨goal.point, hazards.map Placement.point⟩, source)

end Sky

end BlockCoding
