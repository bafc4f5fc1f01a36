import BlockCoding.Block.Action
import BlockCoding.Grid.Codes

/-!
# Level/Maze — the literal maze levels

Five levels, each with a name and a solution in action words.  An id that no level has stands for
the first level.
-/

namespace BlockCoding

/-- A literal maze level. -/
structure MazeLevel where
  id : String
  name : String
  /-- A winning program, in action words. -/
  solution : List String
  /-- 0 path, 1 wall, 2 start, 3 goal, 4 collectible. -/
  map : List (List UInt8)
  deriving Repr

namespace MazeLevel

/-- The grid of a level. -/
def build (level : MazeLevel) : Except LevelError Grid := Grid.ofCodes level.map

/-- The solution as actions. -/
def solutionActions (level : MazeLevel) : List Action := Action.ofNames level.solution

/-- The level that unknown ids stand for. -/
def first : MazeLevel :=
  { id := "lvl1"
    name := "Straight Flight"
    solution := ["MOVE_RIGHT", "MOVE_RIGHT", "MOVE_RIGHT", "MOVE_RIGHT"]
    map :=
      [[1, 1, 1, 1, 1, 1, 1, 1],
       [1, 2, 4, 0, 4, 3, 1, 1],
       [1, 1, 1, 1, 1, 1, 1, 1]] }

/-- The levels in playing order. -/
def levels : List MazeLevel :=
  [first,
    { id := "lvl2"
      name := "The Corner"
      solution := ["MOVE_RIGHT", "MOVE_RIGHT", "MOVE_DOWN", "MOVE_DOWN", "MOVE_DOWN"]
      map :=
        [[1, 1, 1, 1, 1, 1],
         [1, 2, 0, 4, 1, 1],
         [1, 1, 1, 0, 1, 1],
         [1, 1, 1, 4, 1, 1],
         [1, 1, 1, 3, 1, 1],
         [1, 1, 1, 1, 1, 1]] },
    { id := "lvl3"
      name := "U-Turn"
      solution := ["MOVE_DOWN", "MOVE_DOWN", "MOVE_RIGHT", "MOVE_RIGHT", "MOVE_UP", "MOVE_UP"]
      map :=
        [[1, 1, 1, 1, 1, 1, 1],
         [1, 2, 1, 3, 1, 1, 1],
         [1, 0, 1, 0, 1, 1, 1],
         [1, 0, 4, 0, 1, 1, 1],
         [1, 0, 0, 4, 1, 1, 1],
         [1, 1, 1, 1, 1, 1, 1]] },
    { id := "lvl4"
      name := "Zig-Zag"
      solution := ["MOVE_UP", "MOVE_RIGHT", "MOVE_RIGHT", "MOVE_UP", "MOVE_RIGHT", "MOVE_RIGHT"]
      map :=
        [[1, 1, 1, 1, 1, 1, 1, 1],
         [1, 1, 1, 0, 4, 3, 1, 1],
         [1, 4, 0, 0, 1, 1, 1, 1],
         [1, 2, 1, 1, 1, 1, 1, 1],
         [1, 1, 1, 1, 1, 1, 1, 1]] },
    { id := "lvl5"
      name := "Hidden Orchard"
      solution := ["MOVE_RIGHT", "MOVE_RIGHT", "MOVE_DOWN", "MOVE_DOWN", "MOVE_LEFT", "MOVE_DOWN",
        "MOVE_DOWN", "MOVE_RIGHT", "MOVE_RIGHT", "MOVE_RIGHT"]
      map :=
        [[1, 1, 1, 1, 1, 1, 1],
         [1, 2, 0, 4, 1, 1, 1],
         [1, 1, 1, 0, 1, 1, 1],
         [1, 1, 0, 0, 1, 1, 1],
         [1, 1, 4, 1, 1, 1, 1],
         [1, 1, 0, 4, 4, 3, 1],
         [1, 1, 1, 1, 1, 1, 1]] }]

/-- The level with a given id, or else the first one. -/
def ofId (id : String) : MazeLevel :=
  (levels.find? fun level => level.id == id).getD first

end MazeLevel

end BlockCoding
