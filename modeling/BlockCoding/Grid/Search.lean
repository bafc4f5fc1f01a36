import BlockCoding.Grid.Basic

/-!
# Grid/Search — is a goal reachable from the start?

`Grid.goalReachable` searches breadth first with gates taken as open; `Grid.Reaches` is the relation
it decides.  Each round takes one cell off the queue, and a cell enters the queue only when it is
first seen, so one round for each stored tile and one for the start are enough.
-/

namespace BlockCoding

namespace Grid

/-- The neighbours of a cell along some headings that can be entered and have not been seen, in
order, without repetition. -/
def fresh (g : Grid) (c : Cell) : List Cell → List Heading → Except Fault (List Cell)
  | _, [] => pure []
  | seen, h :: headings => do
    let next ← c.offset? h
    if (← g.isPassable next true) && !seen.contains next then
      return next :: (← g.fresh c (next :: seen) headings)
    else g.fresh c seen headings

/-- Breadth-first search for a goal: `rounds` bounds the number of cells taken off the queue. -/
def search (g : Grid) : Nat → List Cell → List Cell → Except Fault Bool
  | 0, _, _ => pure false
  | _ + 1, [], _ => pure false
  | rounds + 1, c :: queue, seen => do
    if (← g.tile c) = some .goal then pure true
    else
      let found ← g.fresh c seen Heading.all
      g.search rounds (queue ++ found) (found ++ seen)

/-- Whether a goal is reachable from the start, every gate taken as open. -/
def goalReachable (g : Grid) : Except Fault Bool :=
  g.search (g.tiles.size + 1) [g.start] [g.start]

/-- **What the search decides**: `b` is reached from `a` by steps to neighbours that can be
entered. -/
inductive Reaches (g : Grid) (a : Cell) : Cell → Prop where
  | refl : Reaches g a a
  | step {b : Cell} (h : Heading) (reached : Reaches g a b)
      (enterable : g.isPassable (b.offset h) true = .ok true) : Reaches g a (b.offset h)

end Grid

end BlockCoding
