import BlockCoding.Grid.Search

/-!
# Grid/Codes — literal levels

A literal level is a matrix of codes: 0 path, 1 wall, 2 start, 3 goal, 4 collectible.
`Grid.ofCodes` reads one, or says what is wrong with it: the topmost faulty row is reported, and the
start and the reachability of a goal are looked at only when every row is sound.
-/

namespace BlockCoding

/-- What is wrong with a literal level. -/
inductive LevelError where
  /-- There are no rows, or the first one is empty. -/
  | empty
  /-- A row is longer or shorter than the first one. -/
  | ragged (row found expected : Nat)
  | unknownCode (code : UInt8) (cell : Cell)
  /-- The number of starts is not one. -/
  | startCount (count : Nat)
  | unreachable
  deriving DecidableEq, Repr

/-- The text of a level error. -/
def LevelError.message : LevelError → String
  | empty => "level has no rows"
  | ragged row found expected =>
    "row " ++ toString row ++ " has " ++ toString found ++ " columns, expected "
      ++ toString expected
  | unknownCode code cell =>
    "unknown tile code " ++ toString code.toNat ++ " at " ++ cell.text
  | startCount count => "level needs exactly one start, found " ++ toString count
  | unreachable => "no goal is reachable from the start"

namespace Grid

/-- The tile of a code; the start is a path. -/
def tileOfCode? (code : UInt8) : Option Tile :=
  if code = 0 ∨ code = 2 then some .path
  else if code = 1 then some .wall
  else if code = 3 then some .goal
  else if code = 4 then some .collectible
  else none

/-- The cell in column `x` of row `y`. -/
def codeCell (x y : Nat) : Cell := ⟨Int32.ofNat x, Int32.ofNat y⟩

/-- The tiles of a row from column `x` on; the leftmost unknown code is reported. -/
def rowTiles (y : Nat) : Nat → List UInt8 → Except LevelError (List Tile)
  | _, [] => pure []
  | x, code :: codes =>
    match tileOfCode? code with
    | none => throw (.unknownCode code (codeCell x y))
    | some t => do return t :: (← rowTiles y (x + 1) codes)

/-- The tiles of the rows from row `y` on, each of `width` columns; the topmost faulty row is
reported. -/
def rowsTiles (width : Nat) : Nat → List (List UInt8) → Except LevelError (List Tile)
  | _, [] => pure []
  | y, row :: rows =>
    if row.length ≠ width then throw (.ragged y row.length width)
    else do
      let here ← rowTiles y 0 row
      return here ++ (← rowsTiles width (y + 1) rows)

/-- The cells of the starts, row by row. -/
def startCells (rows : List (List UInt8)) : List Cell :=
  rows.zipIdx.flatMap fun (row, y) =>
    row.zipIdx.filterMap fun (code, x) => if code = 2 then some (codeCell x y) else none

/-- Reads a literal level.  A grid of full rows has a tile for each of its cells, so the search at
the end meets no fault. -/
def ofCodes (rows : List (List UInt8)) : Except LevelError Grid :=
  match rows with
  | [] | [] :: _ => .error .empty
  | first :: _ => do
    let tiles ← rowsTiles first.length 0 rows
    match startCells rows with
    | [start] =>
      let grid : Grid :=
        { width := Int32.ofNat first.length
          height := Int32.ofNat rows.length
          tiles := tiles.toArray
          start
          startHeading := .right }
      match grid.goalReachable with
      | .ok true => .ok grid
      | _ => .error .unreachable
    | starts => .error (.startCount starts.length)

end Grid

end BlockCoding
