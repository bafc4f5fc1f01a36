import BlockCoding.Grid.Basic
import BlockCoding.Json.Basic

/-!
# Store/Grid — stored forms of cells, headings, tiles and grids

A stored grid may have any dimensions and any number of tiles.
-/

namespace BlockCoding

namespace Cell

/-- A cell is stored as a record of its coordinates. -/
def toJson (c : Cell) : Json := .record [("x", .ofInt c.x.toInt), ("y", .ofInt c.y.toInt)]

/-- Reads a cell; its coordinates have 32 bits and a sign. -/
def ofJson? (j : Json) : Option Cell := do
  let [x, y] ← j.slots? ["x", "y"] | none
  return ⟨← x.required Json.int32?, ← y.required Json.int32?⟩

end Cell

namespace Heading

/-- The name under which a heading is stored. -/
def storedName : Heading → String
  | up => "Up"
  | right => "Right"
  | down => "Down"
  | left => "Left"

/-- A heading is stored as its name. -/
def toJson (h : Heading) : Json := .ofString h.storedName

/-- Reads a heading by its name. -/
def ofJson? (j : Json) : Option Heading := j.bareCase? all storedName

end Heading

namespace Tile

/-- The name under which a kind of tile is stored. -/
def storedName : Tile → String
  | path => "Path"
  | wall => "Wall"
  | switch => "Switch"
  | gate => "Gate"
  | collectible => "Collectible"
  | goal => "Goal"

/-- A tile is stored as the name of its kind. -/
def toJson (t : Tile) : Json := .ofString t.storedName

/-- Reads a tile by the name of its kind. -/
def ofJson? (j : Json) : Option Tile := j.bareCase? all storedName

end Tile

namespace Grid

/-- A grid is stored with its tiles in one list, row by row. -/
def toJson (g : Grid) : Json :=
  .record
    [("width", .ofInt g.width.toInt),
      ("height", .ofInt g.height.toInt),
      ("tiles", .ofList Tile.toJson g.tiles.toList),
      ("start", g.start.toJson),
      ("start_heading", g.startHeading.toJson)]

/-- Reads a grid; nothing compares the number of its tiles with its dimensions. -/
def ofJson? (j : Json) : Option Grid := do
  let [width, height, tiles, start, heading] ←
    j.slots? ["width", "height", "tiles", "start", "start_heading"] | none
  return {
    width := ← width.required Json.int32?
    height := ← height.required Json.int32?
    tiles := (← tiles.required (Json.list? Tile.ofJson?)).toArray
    start := ← start.required Cell.ofJson?
    startHeading := ← heading.required Heading.ofJson? }

end Grid

end BlockCoding
