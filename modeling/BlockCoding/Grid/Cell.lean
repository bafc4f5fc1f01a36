import BlockCoding.Fault

/-!
# Grid/Cell — coordinates and the four headings

Cells are pairs of 32-bit coordinates, `x` growing to the right and `y` growing downward.  A cell at
the end of the coordinate range has no neighbour beyond it.
-/

namespace BlockCoding

/-- A grid coordinate. -/
structure Cell where
  x : Int32
  y : Int32
  deriving DecidableEq, Repr

/-- A cardinal facing. -/
inductive Heading where
  | up
  | right
  | down
  | left
  deriving DecidableEq, Repr

namespace Heading

/-- The four headings, clockwise from the top. -/
def all : List Heading := [up, right, down, left]

theorem mem_all (h : Heading) : h ∈ all := by cases h <;> decide

/-- The displacement of one cell along a heading. -/
def delta : Heading → Int32 × Int32
  | up => (0, -1)
  | right => (1, 0)
  | down => (0, 1)
  | left => (-1, 0)

/-- The heading after a quarter turn to the right. -/
def turnRight : Heading → Heading
  | up => right
  | right => down
  | down => left
  | left => up

/-- The heading after a quarter turn to the left. -/
def turnLeft : Heading → Heading
  | up => left
  | left => down
  | down => right
  | right => up

/-- **A left turn undoes a right turn.** -/
@[simp] theorem turnLeft_turnRight (h : Heading) : h.turnRight.turnLeft = h := by
  cases h <;> rfl

@[simp] theorem turnRight_turnLeft (h : Heading) : h.turnLeft.turnRight = h := by
  cases h <;> rfl

end Heading

namespace Cell

/-- The neighbour of a cell along a heading, for cells that have one (`offset?`). -/
def offset (c : Cell) (h : Heading) : Cell :=
  ⟨c.x + h.delta.1, c.y + h.delta.2⟩

/-- The neighbour of a cell along a heading; past the end of the coordinates that is a fault. -/
def offset? (c : Cell) (h : Heading) : Except Fault Cell :=
  fitting
    (fun d => d.x.toInt == c.x.toInt + h.delta.1.toInt && d.y.toInt == c.y.toInt + h.delta.2.toInt)
    (c.offset h)

/-- The text of a cell, as failure messages show it. -/
def text (c : Cell) : String :=
  "(" ++ toString c.x.toInt ++ ", " ++ toString c.y.toInt ++ ")"

/-- The order of cells: by column, then by row. -/
def Before (a b : Cell) : Prop := a.x < b.x ∨ a.x = b.x ∧ a.y < b.y

instance (a b : Cell) : Decidable (a.Before b) :=
  inferInstanceAs (Decidable (_ ∨ _))

end Cell

end BlockCoding
