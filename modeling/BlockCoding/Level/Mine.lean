import BlockCoding.Grid.Basic
import BlockCoding.Random
import BlockCoding.Stage.Point
import BlockCoding.Stage.Spread

/-!
# Level/Mine — random mines

A mine is a six by six grid with gems and asteroids at random cells.  Cells at a distance of at
least one are distinct, so nothing is put on the start or on anything placed before.  A cell that
found no room is skipped.
-/

namespace BlockCoding.Mine

/-- The number of columns, and of rows. -/
def side : UInt32 := 6

/-- The number of gems to place. -/
def gemCount : Nat := 4

/-- The number of asteroids to place, after the gems. -/
def asteroidCount : Nat := 5

/-- Where the avatar starts; nothing is placed there. -/
def start : Cell := ⟨0, 0⟩

/-- Distinct cells, with sixty-four samples for each one. -/
def spacing : Spacing := ⟨1, 64⟩

/-- A cell as a point of the plane. -/
def toPoint (c : Cell) : Point := ⟨Float32.ofInt c.x.toInt, Float32.ofInt c.y.toInt⟩

/-- The distance of two cells in the plane. -/
def distance (a b : Cell) : Float32 := (toPoint a).distance (toPoint b)

/-- The mine before anything is placed. -/
def bare : Grid := .filled side.toInt32 side.toInt32 .path start .right

/-- Puts a tile on every placed cell that found room. -/
def putAll (tile : Tile) (placed : List (Placement Cell)) (g : Grid) : Grid :=
  placed.foldl (fun g p => if p.spaced then g.setTile p.point tile else g) g

variable {σ : Type} [RandomSource σ]

/-- A cell of the mine; the column is drawn first. -/
def sample (source : σ) : Cell × σ :=
  let (x, source) := RandomSource.below side source
  let (y, source) := RandomSource.below side source
  (⟨x.toInt32, y.toInt32⟩, source)

/-- Generates a mine: first the gems, then the asteroids. -/
def generate (source : σ) : Grid × σ :=
  let (gems, taken, source) := Spread.place distance spacing sample gemCount [start] source
  let (asteroids, _, source) := Spread.place distance spacing sample asteroidCount taken source
  (putAll .wall asteroids (putAll .collectible gems bare), source)

end BlockCoding.Mine
