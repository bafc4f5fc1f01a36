import BlockCoding.Level.Maze
import BlockCoding.Level.Mine
import BlockCoding.Level.Ruins
import BlockCoding.Proofs.Grid.Codes

/-!
# Proofs/Level/Worlds — every level is well formed

The ruins are one grid; the literal levels are all accepted, so the theory of accepted levels
applies (`MazeLevel.exists_build`); and a mine keeps the shape of the bare one whatever is drawn
(`Mine.wellFormed_generate`).
-/

namespace BlockCoding

theorem Ruins.wellFormed_grid : Ruins.grid.WellFormed := by decide +kernel

/-! ## Literal levels -/

namespace MazeLevel

/-- Whether a level is accepted, and small enough for its cells to be coordinates. -/
def isSound (level : MazeLevel) : Bool :=
  level.build.toBool && decide (Grid.columns level.map * level.map.length ≤ 2147483647)

theorem isSound_of_mem {level : MazeLevel} (h : level ∈ levels) : level.isSound = true :=
  List.all_eq_true.mp (by decide +kernel : levels.all isSound = true) level h

theorem ofId_mem (id : String) : ofId id ∈ levels := by
  rw [ofId]
  cases h : levels.find? fun level => level.id == id with
  | none => exact List.mem_cons_self
  | some level => exact List.mem_of_find?_eq_some h

/-- **Every id stands for a level that is read**, and its grid is well formed. -/
theorem exists_build (id : String) : ∃ g, (ofId id).build = .ok g ∧ g.WellFormed := by
  have hsound := isSound_of_mem (ofId_mem id)
  rw [isSound, Bool.and_eq_true, decide_eq_true_iff] at hsound
  cases h : (ofId id).build with
  | error e =>
    rw [h] at hsound
    cases hsound.1
  | ok g => exact ⟨g, rfl, (Grid.accepted_of_ofCodes h hsound.2).wellFormed hsound.2⟩

end MazeLevel

/-! ## Mines -/

namespace Spread

variable {α : Type}

/-- The points of the placements that are spaced. -/
def withRoom (placed : List (Placement α)) : List α :=
  (placed.filter Placement.spaced).map Placement.point

@[simp] theorem length_withRoom (placed : List (Placement α)) :
    (withRoom placed).length = placed.countP Placement.spaced := by
  rw [withRoom, List.length_map, List.countP_eq_length_filter]

end Spread

namespace Mine

open Spread (withRoom)

theorem putAll_eq (tile : Tile) (placed : List (Placement Cell)) (g : Grid) :
    putAll tile placed g = g.setAll tile (withRoom placed) := by
  rw [putAll, Grid.setAll, withRoom, List.foldl_map, List.foldl_filter]

theorem sameShape_putAll (tile : Tile) (placed : List (Placement Cell)) (g : Grid) :
    Grid.SameShape g (putAll tile placed g) :=
  putAll_eq tile placed g ▸ Grid.sameShape_setAll g tile _

/-- **A mine is well formed**, whatever is drawn. -/
theorem wellFormed_generate {σ : Type} [RandomSource σ] (source : σ) :
    (generate source).1.WellFormed := by
  have hbare : bare.WellFormed := by decide +kernel
  rw [generate]
  obtain ⟨gems, taken, later⟩ := Spread.place distance spacing sample gemCount [start] source
  dsimp only
  obtain ⟨asteroids, -, last⟩ := Spread.place distance spacing sample asteroidCount taken later
  exact ((sameShape_putAll _ gems bare).trans (sameShape_putAll _ asteroids _)).wellFormed hbare

end Mine

end BlockCoding
