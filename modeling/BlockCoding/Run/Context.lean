import BlockCoding.Run.Rules
import BlockCoding.Run.Event

/-!
# Run/Context — what a grid run has done so far

A `CellSet` keeps its cells in strictly increasing order, so that two sets with the same cells are
the same set (`CellSet.ext_mem`).  A `Context` is the avatar's position, heading, energy and what
it has collected.
-/

namespace BlockCoding

/-! ## Sets of cells -/

/-- A finite set of cells, listed in strictly increasing order. -/
structure CellSet where
  cells : List Cell
  sorted : cells.Pairwise Cell.Before
  deriving DecidableEq, Repr

/-- Puts a cell into its place in an increasing list. -/
def insertCell (c : Cell) : List Cell → List Cell
  | [] => [c]
  | d :: rest =>
    if c.Before d then c :: d :: rest
    else if c = d then d :: rest
    else d :: insertCell c rest

theorem mem_insertCell {c e : Cell} {cells : List Cell} :
    e ∈ insertCell c cells ↔ e = c ∨ e ∈ cells := by
  induction cells with
  | nil => simp [insertCell]
  | cons d rest ih =>
    rw [insertCell]
    split
    · simp
    · split
      · next h => simp [h]
      · simp only [List.mem_cons, ih, or_left_comm]

theorem Cell.Before.trans {a b c : Cell} (hab : a.Before b) (hbc : b.Before c) : a.Before c := by
  simp only [Cell.Before, Int32.lt_iff_toInt_lt, ← Int32.toInt_inj] at *
  omega

theorem Cell.Before.irrefl (a : Cell) : ¬ a.Before a := by
  simp [Cell.Before, Int32.lt_irrefl]

/-- The order of cells is total. -/
theorem Cell.before_or {a b : Cell} (hab : ¬ a.Before b) (hne : a ≠ b) : b.Before a := by
  have hxy : ¬ (a.x = b.x ∧ a.y = b.y) := fun h => hne (by cases a; cases b; simp_all)
  simp only [Cell.Before, Int32.lt_iff_toInt_lt, ← Int32.toInt_inj] at *
  omega

theorem sorted_insertCell (c : Cell) {cells : List Cell} (h : cells.Pairwise Cell.Before) :
    (insertCell c cells).Pairwise Cell.Before := by
  induction cells with
  | nil => simp [insertCell]
  | cons d rest ih =>
    obtain ⟨hd, hrest⟩ := List.pairwise_cons.mp h
    rw [insertCell]
    split
    · next hcd =>
      refine List.pairwise_cons.mpr ⟨fun e he => ?_, h⟩
      rcases List.mem_cons.mp he with rfl | he
      · exact hcd
      · exact hcd.trans (hd e he)
    · next hcd =>
      split
      · exact h
      · next hne =>
        refine List.pairwise_cons.mpr ⟨fun e he => ?_, ih hrest⟩
        rcases mem_insertCell.mp he with rfl | he
        · exact Cell.before_or hcd hne
        · exact hd e he

namespace CellSet

/-- The set without a cell. -/
def empty : CellSet := ⟨[], List.Pairwise.nil⟩

/-- Whether a cell is in a set. -/
def contains (s : CellSet) (c : Cell) : Bool := s.cells.contains c

/-- A set with one more cell, in its place; a cell that is in it changes nothing. -/
def insert (s : CellSet) (c : Cell) : CellSet :=
  ⟨insertCell c s.cells, sorted_insertCell c s.sorted⟩

/-- The number of cells in a set. -/
def size (s : CellSet) : Nat := s.cells.length

/-- The set of the cells in a list. -/
def ofList (cells : List Cell) : CellSet := cells.foldl insert empty

theorem mem_insert {s : CellSet} {c e : Cell} : e ∈ (s.insert c).cells ↔ e = c ∨ e ∈ s.cells :=
  mem_insertCell

theorem contains_eq_true_iff {s : CellSet} {c : Cell} : s.contains c = true ↔ c ∈ s.cells := by
  simp [contains]

end CellSet

/-- Two increasing lists with the same cells are the same list. -/
theorem eq_of_mem_iff {xs ys : List Cell} (hx : xs.Pairwise Cell.Before)
    (hy : ys.Pairwise Cell.Before) (h : ∀ c, c ∈ xs ↔ c ∈ ys) : xs = ys := by
  induction xs generalizing ys with
  | nil => exact (List.eq_nil_iff_forall_not_mem.mpr fun c hc => by simpa using (h c).mpr hc).symm
  | cons x xs ih =>
    cases ys with
    | nil => simpa using (h x).mp List.mem_cons_self
    | cons y ys =>
      obtain ⟨hx₁, hxs⟩ := List.pairwise_cons.mp hx
      obtain ⟨hy₁, hys⟩ := List.pairwise_cons.mp hy
      have hxy : x = y := by
        rcases List.mem_cons.mp ((h x).mp List.mem_cons_self) with hxy | hxm
        · exact hxy
        · rcases List.mem_cons.mp ((h y).mpr List.mem_cons_self) with hyx | hym
          · exact hyx.symm
          · exact absurd ((hx₁ y hym).trans (hy₁ x hxm)) (Cell.Before.irrefl x)
      subst hxy
      refine congrArg (x :: ·) (ih hxs hys fun c => ⟨fun hc => ?_, fun hc => ?_⟩)
      · rcases List.mem_cons.mp ((h c).mp (List.mem_cons_of_mem _ hc)) with rfl | hc'
        · exact absurd (hx₁ c hc) (Cell.Before.irrefl c)
        · exact hc'
      · rcases List.mem_cons.mp ((h c).mpr (List.mem_cons_of_mem _ hc)) with rfl | hc'
        · exact absurd (hy₁ c hc) (Cell.Before.irrefl c)
        · exact hc'

/-- **A set is determined by its cells.** -/
theorem CellSet.ext_mem {s t : CellSet} (h : ∀ c, c ∈ s.cells ↔ c ∈ t.cells) : s = t := by
  have := eq_of_mem_iff s.sorted t.sorted h
  cases s
  cases t
  simp_all

/-! ## The context of a run -/

/-- The avatar's side of a grid run. -/
structure Context where
  pos : Cell
  heading : Heading
  energy : UInt32
  collected : CellSet
  gateOpen : Bool
  deriving DecidableEq, Repr

namespace Context

/-- The context at the start of a grid. -/
def initial (world : Grid) (rules : Rules) : Context :=
  ⟨world.start, world.startHeading, rules.startEnergy, .empty, false⟩

/-- Takes `cost` off the energy, down to zero at the least. -/
def spend (ctx : Context) (cost : UInt32) : Context :=
  { ctx with energy := if ctx.energy ≤ cost then 0 else ctx.energy - cost }

end Context

end BlockCoding
