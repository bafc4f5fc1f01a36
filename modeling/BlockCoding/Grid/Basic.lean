import BlockCoding.Grid.Cell

/-!
# Grid/Basic — tile worlds

A `Grid` is its dimensions and its tiles, row by row.  Nothing forces the number of tiles to be the
product of the dimensions: a stored grid may hold any list.  Looking at a cell inside the bounds
for which no tile is stored is a `Fault`; `Grid.WellFormed` grids have a tile for each such cell.
-/

namespace BlockCoding

/-- What occupies a cell. -/
inductive Tile where
  | path
  | wall
  | switch
  /-- Closed until a switch is activated. -/
  | gate
  | collectible
  | goal
  deriving DecidableEq, Repr

namespace Tile

/-- The kinds of tile, in the order in which they are counted. -/
def all : List Tile := [path, wall, switch, gate, collectible, goal]

/-- The word for a kind of tile. -/
def name : Tile → String
  | path => "path"
  | wall => "wall"
  | switch => "switch"
  | gate => "gate"
  | collectible => "collectible"
  | goal => "goal"

/-- Whether the avatar may stand on a tile. -/
def isPassable (gateOpen : Bool) : Tile → Bool
  | wall => false
  | gate => gateOpen
  | _ => true

end Tile

/-- A tile world: tiles are stored row by row. -/
structure Grid where
  width : Int32
  height : Int32
  tiles : Array Tile
  start : Cell
  startHeading : Heading
  deriving DecidableEq, Repr

namespace Grid

/-- A grid of one kind of tile; a negative area holds none. -/
def filled (width height : Int32) (tile : Tile) (start : Cell) (startHeading : Heading) : Grid :=
  ⟨width, height, Array.replicate (width * height).toNatClampNeg tile, start, startHeading⟩

/-- A grid of one kind of tile, for any dimensions: an area that is negative or does not fit into
its word is a fault. -/
def filled? (width height : Int32) (tile : Tile) (start : Cell) (startHeading : Heading) :
    Except Fault Grid := do
  let area ← fitting (fun area => area.toInt == width.toInt * height.toInt) (width * height)
  if area < 0 then throw .negativeArea
  else pure (filled width height tile start startHeading)

/-- **The shape that every generated grid has**: no dimension is negative, the area does not
overflow, each cell inside the bounds has its tile, and the start is inside. -/
structure WellFormed (g : Grid) : Prop where
  width_nonneg : 0 ≤ g.width.toInt
  height_nonneg : 0 ≤ g.height.toInt
  area_lt : g.width.toInt * g.height.toInt < 2147483648
  size_eq : (g.tiles.size : Int) = g.width.toInt * g.height.toInt
  start_x : 0 ≤ g.start.x.toInt ∧ g.start.x.toInt < g.width.toInt
  start_y : 0 ≤ g.start.y.toInt ∧ g.start.y.toInt < g.height.toInt

/-- Whether a cell lies inside the bounds. -/
def inBounds (g : Grid) (c : Cell) : Bool :=
  0 ≤ c.x && c.x < g.width && 0 ≤ c.y && c.y < g.height

/-- Where the tile of a cell is stored. -/
def position (g : Grid) (c : Cell) : Int32 := c.y * g.width + c.x

/-- Where the tile of a cell inside the bounds is stored; a number that does not fit into its word
is a fault. -/
def position? (g : Grid) (c : Cell) : Except Fault Int32 :=
  fitting (fun p => p.toInt == c.y.toInt * g.width.toInt + c.x.toInt) (g.position c)

/-- The tile of a cell, none outside the bounds. -/
def tile (g : Grid) (c : Cell) : Except Fault (Option Tile) := do
  if g.inBounds c then
    match g.tiles[(← g.position? c).toNatClampNeg]? with
    | some t => pure (some t)
    | none => throw .missingTile
  else pure none

/-- Puts a tile on a cell inside the bounds. -/
def setTile (g : Grid) (c : Cell) (t : Tile) : Grid :=
  if g.inBounds c && 0 ≤ g.position c then
    { g with tiles := g.tiles.setIfInBounds (g.position c).toNatClampNeg t }
  else g

/-- Whether the avatar may enter a cell. -/
def isPassable (g : Grid) (c : Cell) (gateOpen : Bool) : Except Fault Bool := do
  match ← g.tile c with
  | none => pure false
  | some t => pure (t.isPassable gateOpen)

/-- Takes the collectible off a cell; tells whether there was one. -/
def clear (g : Grid) (c : Cell) : Except Fault (Bool × Grid) := do
  match ← g.tile c with
  | some .collectible => pure (true, g.setTile c .path)
  | _ => pure (false, g)

/-- The number of tiles of a kind. -/
def count (g : Grid) (t : Tile) : Nat := g.tiles.count t

/-- The cell that the tile stored at position `i` belongs to. -/
def cellAt (g : Grid) (i : Nat) : Cell :=
  ⟨Int32.ofNat i % g.width, Int32.ofNat i / g.width⟩

/-- Every stored tile with its cell, in the order of storage. -/
def cells (g : Grid) : Except Fault (List (Cell × Tile)) :=
  if g.width = 0 && !g.tiles.isEmpty then .error .noColumns
  else .ok (g.tiles.toList.mapIdx fun i t => (g.cellAt i, t))

end Grid

end BlockCoding
