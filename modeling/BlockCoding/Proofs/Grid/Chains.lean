import BlockCoding.Proofs.Grid.Reachability
import Mathlib.Data.List.Chain

/-!
# Proofs/Grid/Chains — the search finds a goal exactly if a chain of cells leads to one

A chain goes from cell to adjacent cell, inside the bounds and around the walls (`Entered`).  From
any cell, inside or not, the headings lead to the adjacent cells inside the bounds (`entered_iff`),
so what the search reaches is where the chains end (`reaches_iff`).  `goalReachable_decides`: the
search tells whether one of them ends at a goal, but for a start at the very end of the coordinates:
there it breaks off, whether or not a chain leads on.
-/

namespace BlockCoding

/-! ## From cell to cell -/

/-- **Cells that share an edge**: one coordinate is the same, and the other differs by one. -/
def Cell.Adjacent (a b : Cell) : Prop :=
  (b.x.toInt - a.x.toInt).natAbs + (b.y.toInt - a.y.toInt).natAbs = 1

/-- Adjacent cells are a heading apart. -/
theorem Cell.Adjacent.exists_offset {a b : Cell} (hab : a.Adjacent b) :
    ∃ h, a.offset h = b := by
  rw [Cell.Adjacent] at hab
  have hcases : b.x.toInt = a.x.toInt ∧ b.y.toInt = a.y.toInt + -1 ∨
      b.x.toInt = a.x.toInt + 1 ∧ b.y.toInt = a.y.toInt ∨
      b.x.toInt = a.x.toInt ∧ b.y.toInt = a.y.toInt + 1 ∨
      b.x.toInt = a.x.toInt + -1 ∧ b.y.toInt = a.y.toInt := by omega
  rcases hcases with ⟨hx, hy⟩ | ⟨hx, hy⟩ | ⟨hx, hy⟩ | ⟨hx, hy⟩
  · exact ⟨.up, Cell.offset_eq_of_toInt (by simpa [Heading.delta] using hx) hy⟩
  · exact ⟨.right, Cell.offset_eq_of_toInt hx (by simpa [Heading.delta] using hy)⟩
  · exact ⟨.down, Cell.offset_eq_of_toInt (by simpa [Heading.delta] using hx) hy⟩
  · exact ⟨.left, Cell.offset_eq_of_toInt hx (by simpa [Heading.delta] using hy)⟩

/-- A cell and its neighbour are adjacent. -/
theorem Cell.adjacent_of_offset? {a b : Cell} {h : Heading} (hb : a.offset? h = .ok b) :
    a.Adjacent b := by
  obtain ⟨hx, hy⟩ := Cell.offset?_eq_ok_iff.mp hb
  have hdelta : h.delta.1.toInt.natAbs + h.delta.2.toInt.natAbs = 1 := by cases h <;> rfl
  rw [Cell.Adjacent, hx, hy]
  omega

namespace Grid

variable {g : Grid} {a b c : Cell}

/-- The neighbours of a cell inside the bounds are adjacent to it, even outside. -/
theorem adjacent_offset (hc : g.inBounds c = true) (h : Heading) : c.Adjacent (c.offset h) :=
  Cell.adjacent_of_offset? (offset?_of_inBounds hc h)

/-- **A cell entered from another one**: it is adjacent, inside the bounds and no wall. -/
structure Entered (g : Grid) (a b : Cell) : Prop where
  adjacent : a.Adjacent b
  inBounds : g.inBounds b = true
  not_wall : g.tile b ≠ .ok (some .wall)

/-! ## What the search decides -/

/-- With the gates open, whatever is inside the bounds and no wall lets the avatar in. -/
theorem Tiled.isPassable_true_iff (hg : g.Tiled) :
    g.isPassable c true = .ok true ↔ g.inBounds c = true ∧ g.tile c ≠ .ok (some .wall) := by
  obtain ⟨o, ho, hin⟩ := hg.tile_eq_ok c
  rw [isPassable, ho, ← hin]
  cases o with
  | none => simp
  | some t => cases t <;> simp [Tile.isPassable]

/-- The cells that the search goes on to are those that are entered. -/
theorem Tiled.entered_iff (hg : g.Tiled) :
    g.Entered a b ↔ ∃ h, b = a.offset h ∧ g.isPassable b true = .ok true := by
  constructor
  · intro hab
    obtain ⟨h, rfl⟩ := hab.adjacent.exists_offset
    exact ⟨h, rfl, hg.isPassable_true_iff.mpr ⟨hab.inBounds, hab.not_wall⟩⟩
  · rintro ⟨h, rfl, hpass⟩
    obtain ⟨hin, hwall⟩ := hg.isPassable_true_iff.mp hpass
    exact ⟨Cell.adjacent_of_offset? (offset?_of_inBounds_offset hin), hin, hwall⟩

/-- **What is reached is what a chain of entered cells ends with.** -/
theorem Tiled.reaches_iff (hg : g.Tiled) : g.Reaches a b ↔
    ∃ cells : List Cell, (a :: cells).IsChain g.Entered ∧
      (a :: cells).getLast (List.cons_ne_nil a cells) = b := by
  constructor
  · intro hreach
    refine List.exists_isChain_cons_of_relationReflTransGen ?_
    induction hreach with
    | refl => exact .refl
    | step h _ enterable ih => exact ih.tail (hg.entered_iff.mpr ⟨h, rfl, enterable⟩)
  · rintro ⟨cells, hchain, hlast⟩
    have hreach := List.relationReflTransGen_of_exists_isChain_cons cells hchain hlast
    clear hlast
    induction hreach with
    | refl => exact .refl
    | tail _ hstep ih =>
      obtain ⟨h, rfl, enterable⟩ := hg.entered_iff.mp hstep
      exact .step h ih enterable

/-- **The search comes to an end, and it finds a goal exactly if a chain of cells leads to one**:
beginning with the start, each cell after it is adjacent to the one before, inside the bounds and no
wall, and the last one is a goal.  The start may be anywhere but at the end of the coordinates; from
there the search is a fault. -/
theorem goalReachable_decides (hg : g.Tiled) :
    (g.start.OnRim → g.goalReachable = .error .overflow) ∧
    (¬ g.start.OnRim → ∃ b, g.goalReachable = .ok b ∧ g.Concludes [g.start] [g.start] b ∧
      (b = true ↔ ∃ cells : List Cell, (g.start :: cells).IsChain g.Entered ∧
        g.tile ((g.start :: cells).getLast (List.cons_ne_nil g.start cells))
          = .ok (some .goal))) := by
  refine ⟨hg.goalReachable_of_onRim, fun hstart => ?_⟩
  obtain ⟨b, hb, hends, hiff⟩ := hg.goalReachable_eq_ok hstart
  refine ⟨b, hb, hends, hiff.trans ?_⟩
  simp only [hg.reaches_iff]
  constructor
  · rintro ⟨c, ⟨cells, hchain, hlast⟩, hgoal⟩
    exact ⟨cells, hchain, hlast ▸ hgoal⟩
  · rintro ⟨cells, hchain, hgoal⟩
    exact ⟨_, ⟨cells, hchain, rfl⟩, hgoal⟩

/-- A grid that is started on from outside, through its gate. -/
def outpost : Grid :=
  { width := 3
    height := 2
    tiles := #[.gate, .wall, .goal, .switch, .path, .collectible]
    start := ⟨-1, 0⟩
    startHeading := .right }

theorem goalReachable_decides_outpost :
    outpost.Tiled ∧ outpost.goalReachable = .ok true ∧
      outpost.Concludes [⟨-1, 0⟩] [⟨-1, 0⟩] true ∧
      ∃ cells : List Cell, (⟨-1, 0⟩ :: cells).IsChain outpost.Entered ∧
        outpost.tile ((⟨-1, 0⟩ :: cells).getLast (List.cons_ne_nil _ cells))
          = .ok (some .goal) := by
  have htiled : outpost.Tiled := ⟨by decide, by decide⟩
  have hfound : outpost.goalReachable = .ok true := by decide +kernel
  obtain ⟨b, hb, hends, hiff⟩ := (goalReachable_decides htiled).2 (by decide)
  obtain rfl := Except.ok.inj (hb.symm.trans hfound)
  exact ⟨htiled, hfound, hends, hiff.mp rfl⟩

/-- A single goal, and a start that is as far to the right of it as there are cells. -/
def brink : Grid :=
  { width := 1
    height := 1
    tiles := #[.goal]
    start := ⟨2147483647, 0⟩
    startHeading := .right }

/-- **No chain leads from that start to the goal, but the search does not say so.** -/
theorem goalReachable_brink :
    brink.Tiled ∧ brink.goalReachable = .error .overflow ∧
      ¬ ∃ cells : List Cell, (brink.start :: cells).IsChain brink.Entered ∧
        brink.tile ((brink.start :: cells).getLast (List.cons_ne_nil brink.start cells))
          = .ok (some .goal) := by
  refine ⟨⟨by decide, by decide⟩, by decide +kernel, ?_⟩
  rintro ⟨cells, hchain, hgoal⟩
  cases cells with
  | nil => exact absurd hgoal (by decide +kernel)
  | cons c rest =>
    have hfirst := (List.isChain_cons_cons.mp hchain).1
    have hnear := hfirst.adjacent
    obtain ⟨⟨hleft, hright⟩, -⟩ := inBounds_iff.mp hfirst.inBounds
    -- the column of a cell inside the bounds is 0, which is nowhere near
    rw [Cell.Adjacent, show brink.start.x.toInt = 2147483647 from rfl] at hnear
    rw [show brink.width.toInt = 1 from rfl] at hright
    omega

end Grid

end BlockCoding
