import BlockCoding.Grid.Basic
import BlockCoding.Proofs.Fault
import Mathlib.Data.List.Nodup
import Mathlib.Data.List.Perm.Subperm

/-!
# Proofs/Grid/Bounds — every cell inside the bounds has a tile of its own

A grid is `Tiled` when it stores as many tiles as its area says and that number is no more than a
coordinate can be.  Then looking at a cell is never a fault (`Tiled.tile_eq_ok`), and the cells
inside the bounds have positions of their own (`Tiled.position_injective`), so that there are no
more of them than tiles (`Tiled.length_le_of_nodup`).  A neighbour is missing only at the end of the
coordinates (`Cell.OnRim`), which no cell inside the bounds reaches (`not_onRim_of_inBounds`).
-/

namespace BlockCoding

/-! ## Neighbours -/

namespace Cell

variable {c d : Cell} {h : Heading}

/-- A cell is where its coordinates say. -/
theorem offset_eq_of_toInt (hx : d.x.toInt = c.x.toInt + h.delta.1.toInt)
    (hy : d.y.toInt = c.y.toInt + h.delta.2.toInt) : c.offset h = d := by
  have hdx : (c.x + h.delta.1).toInt = d.x.toInt := by
    rw [Int32.toInt_add, ← hx]
    exact d.x.toInt_bmod
  have hdy : (c.y + h.delta.2).toInt = d.y.toInt := by
    rw [Int32.toInt_add, ← hy]
    exact d.y.toInt_bmod
  cases d
  exact congrArg₂ Cell.mk (Int32.toInt_inj.mp hdx) (Int32.toInt_inj.mp hdy)

/-- **The neighbour is the cell one further on**, if there is one. -/
theorem offset?_eq_ok_iff : c.offset? h = .ok d ↔
    d.x.toInt = c.x.toInt + h.delta.1.toInt ∧ d.y.toInt = c.y.toInt + h.delta.2.toInt := by
  rw [offset?, fitting_eq_ok_iff, Bool.and_eq_true, beq_iff_eq, beq_iff_eq]
  exact ⟨fun hd => hd.2, fun hd => ⟨offset_eq_of_toInt hd.1 hd.2, hd⟩⟩

/-- There is a neighbour, or the coordinates end. -/
theorem offset?_ok_or_overflow (c : Cell) (h : Heading) :
    c.offset? h = .ok (c.offset h) ∨ c.offset? h = .error .overflow :=
  fitting_ok_or_overflow _ _

/-- **At the end of the coordinates**: one of them is the least or the greatest that there is. -/
def OnRim (c : Cell) : Prop :=
  (c.x = Int32.minValue ∨ c.x = Int32.maxValue) ∨ c.y = Int32.minValue ∨ c.y = Int32.maxValue

instance (c : Cell) : Decidable c.OnRim := inferInstanceAs (Decidable (_ ∨ _))

theorem onRim_iff : c.OnRim ↔ (c.x.toInt = -2147483648 ∨ c.x.toInt = 2147483647) ∨
    c.y.toInt = -2147483648 ∨ c.y.toInt = 2147483647 := by
  simp only [OnRim, ← Int32.toInt_inj, Int32.toInt_minValue, Int32.toInt_maxValue]
  omega

/-- Away from the rim, a cell has all its neighbours. -/
theorem offset?_of_not_onRim (hc : ¬ c.OnRim) (h : Heading) : c.offset? h = .ok (c.offset h) := by
  rw [onRim_iff] at hc
  have hx := c.x.le_toInt
  have hx' := c.x.toInt_lt
  have hy := c.y.le_toInt
  have hy' := c.y.toInt_lt
  rw [offset?_eq_ok_iff, offset, Int32.toInt_add, Int32.toInt_add]
  have hdelta : (-1 ≤ h.delta.1.toInt ∧ h.delta.1.toInt ≤ 1) ∧
      -1 ≤ h.delta.2.toInt ∧ h.delta.2.toInt ≤ 1 := by
    cases h <;> decide
  exact ⟨Int.bmod_eq_of_le_mul_two (by omega) (by omega),
    Int.bmod_eq_of_le_mul_two (by omega) (by omega)⟩

/-- A neighbour past the end of the coordinates is missing. -/
theorem offset?_eq_error
    (hout : (c.x.toInt + h.delta.1.toInt < -2147483648 ∨ 2147483647 < c.x.toInt + h.delta.1.toInt) ∨
      c.y.toInt + h.delta.2.toInt < -2147483648 ∨ 2147483647 < c.y.toInt + h.delta.2.toInt) :
    c.offset? h = .error .overflow := by
  refine fitting_of_not (Bool.eq_false_iff.mpr fun hfits => ?_)
  rw [Bool.and_eq_true, beq_iff_eq, beq_iff_eq] at hfits
  have hx := (c.offset h).x.le_toInt
  have hx' := (c.offset h).x.toInt_lt
  have hy := (c.offset h).y.le_toInt
  have hy' := (c.offset h).y.toInt_lt
  omega

/-- **On the rim, one neighbour is missing.** -/
theorem OnRim.exists_offset? (hc : c.OnRim) : ∃ h, c.offset? h = .error .overflow := by
  rcases onRim_iff.mp hc with (hx | hx) | hy | hy
  · exact ⟨.left, offset?_eq_error (by simp [hx, Heading.delta])⟩
  · exact ⟨.right, offset?_eq_error (by simp [hx, Heading.delta])⟩
  · exact ⟨.up, offset?_eq_error (by simp [hy, Heading.delta])⟩
  · exact ⟨.down, offset?_eq_error (by simp [hy, Heading.delta])⟩

end Cell

namespace Grid

/-- **A tile for each cell**, in numbers that do not overflow; the start may be anywhere. -/
structure Tiled (g : Grid) : Prop where
  area_lt : g.width.toInt * g.height.toInt < 2147483648
  size_eq : (g.tiles.size : Int) = g.width.toInt * g.height.toInt

theorem WellFormed.tiled {g : Grid} (hg : g.WellFormed) : g.Tiled := ⟨hg.area_lt, hg.size_eq⟩

/-- Whether a grid is well formed can be computed. -/
instance (g : Grid) : Decidable g.WellFormed :=
  decidable_of_iff
    (0 ≤ g.width.toInt ∧ 0 ≤ g.height.toInt ∧ g.width.toInt * g.height.toInt < 2147483648 ∧
      (g.tiles.size : Int) = g.width.toInt * g.height.toInt ∧
      (0 ≤ g.start.x.toInt ∧ g.start.x.toInt < g.width.toInt) ∧
      0 ≤ g.start.y.toInt ∧ g.start.y.toInt < g.height.toInt)
    ⟨fun ⟨hw, hh, ha, hs, hx, hy⟩ => ⟨hw, hh, ha, hs, hx, hy⟩,
      fun h => ⟨h.width_nonneg, h.height_nonneg, h.area_lt, h.size_eq, h.start_x, h.start_y⟩⟩

/-! ## Inside the bounds -/

theorem inBounds_iff {g : Grid} {c : Cell} :
    g.inBounds c = true ↔ (0 ≤ c.x.toInt ∧ c.x.toInt < g.width.toInt) ∧
      0 ≤ c.y.toInt ∧ c.y.toInt < g.height.toInt := by
  simp [inBounds, Int32.le_iff_toInt_le, Int32.lt_iff_toInt_lt, and_assoc]

/-- The start of a well-formed grid is inside. -/
theorem WellFormed.inBounds_start {g : Grid} (hg : g.WellFormed) : g.inBounds g.start = true :=
  inBounds_iff.mpr ⟨hg.start_x, hg.start_y⟩

/-- No cell inside the bounds is at the end of the coordinates. -/
theorem not_onRim_of_inBounds {g : Grid} {c : Cell} (hc : g.inBounds c = true) : ¬ c.OnRim := by
  obtain ⟨⟨hx₀, hx⟩, hy₀, hy⟩ := inBounds_iff.mp hc
  have hwidth := g.width.toInt_lt
  have hheight := g.height.toInt_lt
  rw [Cell.onRim_iff]
  omega

/-- The neighbours of a cell inside the bounds are there, even outside. -/
theorem offset?_of_inBounds {g : Grid} {c : Cell} (hc : g.inBounds c = true) (h : Heading) :
    c.offset? h = .ok (c.offset h) :=
  Cell.offset?_of_not_onRim (not_onRim_of_inBounds hc) h

theorem toInt_offset {g : Grid} {c : Cell} (hc : g.inBounds c = true) (h : Heading) :
    (c.offset h).x.toInt = c.x.toInt + h.delta.1.toInt ∧
      (c.offset h).y.toInt = c.y.toInt + h.delta.2.toInt :=
  Cell.offset?_eq_ok_iff.mp (offset?_of_inBounds hc h)

/-- A step back along a heading. -/
theorem offset_turned_round (c : Cell) (h : Heading) :
    (c.offset h).offset h.turnLeft.turnLeft = c := by
  cases h <;> simp [Cell.offset, Heading.delta, Heading.turnLeft, Int32.add_assoc]

/-- The neighbours inside the bounds are there, even of a cell that is outside itself: a step back
from them leads to it. -/
theorem offset?_of_inBounds_offset {g : Grid} {c : Cell} {h : Heading}
    (hin : g.inBounds (c.offset h) = true) : c.offset? h = .ok (c.offset h) := by
  have hback := toInt_offset hin h.turnLeft.turnLeft
  rw [offset_turned_round] at hback
  have hdelta : h.turnLeft.turnLeft.delta.1.toInt = -h.delta.1.toInt ∧
      h.turnLeft.turnLeft.delta.2.toInt = -h.delta.2.toInt := by
    cases h <;> decide
  rw [Cell.offset?_eq_ok_iff]
  omega

/-- A position counts the cells in the rows above and those to the left. -/
theorem Tiled.toInt_position {g : Grid} (hg : g.Tiled) {c : Cell} (hc : g.inBounds c = true) :
    (g.position c).toInt = c.y.toInt * g.width.toInt + c.x.toInt ∧
      0 ≤ (g.position c).toInt ∧ (g.position c).toInt < g.tiles.size := by
  obtain ⟨⟨hx₀, hx⟩, hy₀, hy⟩ := inBounds_iff.mp hc
  have hrow : 0 ≤ c.y.toInt * g.width.toInt := Int.mul_nonneg hy₀ (by omega)
  have hrows : (c.y.toInt + 1) * g.width.toInt ≤ g.height.toInt * g.width.toInt :=
    Int.mul_le_mul_of_nonneg_right (by omega) (by omega)
  rw [Int.add_mul, Int.one_mul, Int.mul_comm g.height.toInt] at hrows
  have harea := hg.area_lt
  have hmul : (c.y.toInt * g.width.toInt).bmod (2 ^ 32) = c.y.toInt * g.width.toInt :=
    Int.bmod_eq_of_le_mul_two (by omega) (by omega)
  have hpos : (g.position c).toInt = c.y.toInt * g.width.toInt + c.x.toInt := by
    rw [position, Int32.toInt_add, Int32.toInt_mul, hmul]
    exact Int.bmod_eq_of_le_mul_two (by omega) (by omega)
  rw [hpos, hg.size_eq]
  exact ⟨rfl, by omega, by omega⟩

/-- The position of a cell inside the bounds fits into its word. -/
theorem Tiled.position?_eq_ok {g : Grid} (hg : g.Tiled) {c : Cell} (hc : g.inBounds c = true) :
    g.position? c = .ok (g.position c) :=
  fitting_eq_ok_iff.mpr ⟨rfl, beq_iff_eq.mpr (hg.toInt_position hc).1⟩

/-- The row of a position is its quotient by the width. -/
theorem Tiled.position_ediv {g : Grid} (hg : g.Tiled) {c : Cell} (hc : g.inBounds c = true) :
    (g.position c).toInt / g.width.toInt = c.y.toInt := by
  obtain ⟨⟨hx₀, hx⟩, -⟩ := inBounds_iff.mp hc
  rw [(hg.toInt_position hc).1, Int.add_comm, Int.add_mul_ediv_right _ _ (by omega),
    Int.ediv_eq_zero_of_lt hx₀ hx, Int.zero_add]

/-- **No two cells inside the bounds share a position.** -/
theorem Tiled.position_injective {g : Grid} (hg : g.Tiled) {c d : Cell}
    (hc : g.inBounds c = true) (hd : g.inBounds d = true)
    (h : (g.position c).toInt = (g.position d).toInt) : c = d := by
  have hy : c.y.toInt = d.y.toInt := by
    rw [← hg.position_ediv hc, ← hg.position_ediv hd, h]
  rw [(hg.toInt_position hc).1, (hg.toInt_position hd).1, hy] at h
  have hx : c.x.toInt = d.x.toInt := by omega
  cases c
  cases d
  exact congrArg₂ Cell.mk (Int32.toInt_inj.mp hx) (Int32.toInt_inj.mp hy)

/-- The position of a cell, as an index. -/
def indexOf (g : Grid) (c : Cell) : Nat := (g.position c).toNatClampNeg

theorem Tiled.indexOf_lt {g : Grid} (hg : g.Tiled) {c : Cell} (hc : g.inBounds c = true) :
    g.indexOf c < g.tiles.size := by
  have hpos := hg.toInt_position hc
  rw [indexOf, ← Int32.toNat_toInt]
  omega

theorem Tiled.indexOf_injective {g : Grid} (hg : g.Tiled) {c d : Cell}
    (hc : g.inBounds c = true) (hd : g.inBounds d = true) (h : g.indexOf c = g.indexOf d) :
    c = d := by
  refine hg.position_injective hc hd ?_
  have hcpos := hg.toInt_position hc
  have hdpos := hg.toInt_position hd
  rw [indexOf, indexOf, ← Int32.toNat_toInt, ← Int32.toNat_toInt] at h
  omega

/-- **There are no more distinct cells inside the bounds than tiles.** -/
theorem Tiled.length_le_of_nodup {g : Grid} (hg : g.Tiled) {cells : List Cell}
    (hcells : ∀ c ∈ cells, g.inBounds c = true) (hnodup : cells.Nodup) :
    cells.length ≤ g.tiles.size := by
  have hmap : (cells.map g.indexOf).Nodup :=
    hnodup.map_on fun c hc d hd h => hg.indexOf_injective (hcells c hc) (hcells d hd) h
  have hsub : cells.map g.indexOf ⊆ List.range g.tiles.size := fun i hi => by
    obtain ⟨c, hc, rfl⟩ := List.mem_map.mp hi
    exact List.mem_range.mpr (hg.indexOf_lt (hcells c hc))
  simpa using (hmap.subperm hsub).length_le

/-! ## Looking at a cell -/

theorem tile_of_not_inBounds {g : Grid} {c : Cell} (hc : g.inBounds c = false) :
    g.tile c = .ok none := by simp [tile, hc]

/-- A cell inside the bounds has the tile stored at its index. -/
theorem Tiled.tile_of_inBounds {g : Grid} (hg : g.Tiled) {c : Cell} (hc : g.inBounds c = true) :
    g.tile c = .ok g.tiles[g.indexOf c]? := by
  rw [tile, if_pos hc, hg.position?_eq_ok hc, ok_bind, ← indexOf,
    Array.getElem?_eq_getElem (hg.indexOf_lt hc)]
  rfl

/-- **Looking at a cell is never a fault**, and it sees a tile exactly inside the bounds. -/
theorem Tiled.tile_eq_ok {g : Grid} (hg : g.Tiled) (c : Cell) :
    ∃ o, g.tile c = .ok o ∧ (o.isSome = g.inBounds c) := by
  cases hc : g.inBounds c with
  | false => exact ⟨none, tile_of_not_inBounds hc, rfl⟩
  | true =>
    refine ⟨_, hg.tile_of_inBounds hc, ?_⟩
    rw [Array.getElem?_eq_getElem (hg.indexOf_lt hc), Option.isSome_some]

/-- Only cells inside the bounds have a tile. -/
theorem inBounds_of_tile {g : Grid} {c : Cell} {t : Tile} (h : g.tile c = .ok (some t)) :
    g.inBounds c = true := by
  cases hc : g.inBounds c with
  | true => rfl
  | false => rw [tile_of_not_inBounds hc] at h; cases h

/-- A tile that is seen is one of those that are stored. -/
theorem mem_tiles_of_tile {g : Grid} {c : Cell} {t : Tile} (h : g.tile c = .ok (some t)) :
    t ∈ g.tiles := by
  rw [tile, if_pos (inBounds_of_tile h)] at h
  obtain ⟨p, -, hp⟩ := bind_eq_ok.mp h
  cases hs : g.tiles[p.toNatClampNeg]? with
  | none => rw [hs] at hp; cases hp
  | some u =>
    rw [hs] at hp
    obtain rfl := Option.some.inj (Except.ok.inj hp)
    exact Array.mem_of_getElem? hs

/-! ## Changing a tile -/

/-- Two grids of one shape: they differ in their tiles at most. -/
structure SameShape (g h : Grid) : Prop where
  width_eq : h.width = g.width
  height_eq : h.height = g.height
  size_eq : h.tiles.size = g.tiles.size
  start_eq : h.start = g.start
  startHeading_eq : h.startHeading = g.startHeading

namespace SameShape

variable {g h k : Grid}

theorem refl (g : Grid) : SameShape g g := ⟨rfl, rfl, rfl, rfl, rfl⟩

theorem trans (hgh : SameShape g h) (hhk : SameShape h k) : SameShape g k :=
  ⟨hhk.width_eq.trans hgh.width_eq, hhk.height_eq.trans hgh.height_eq,
    hhk.size_eq.trans hgh.size_eq, hhk.start_eq.trans hgh.start_eq,
    hhk.startHeading_eq.trans hgh.startHeading_eq⟩

theorem inBounds_eq (s : SameShape g h) (c : Cell) : h.inBounds c = g.inBounds c := by
  rw [inBounds, inBounds, s.width_eq, s.height_eq]

theorem indexOf_eq (s : SameShape g h) (c : Cell) : h.indexOf c = g.indexOf c := by
  rw [indexOf, indexOf, position, position, s.width_eq]

theorem tiled (s : SameShape g h) (hg : g.Tiled) : h.Tiled :=
  ⟨by rw [s.width_eq, s.height_eq]; exact hg.area_lt,
    by rw [s.width_eq, s.height_eq, s.size_eq]; exact hg.size_eq⟩

theorem wellFormed (s : SameShape g h) (hg : g.WellFormed) : h.WellFormed where
  width_nonneg := by rw [s.width_eq]; exact hg.width_nonneg
  height_nonneg := by rw [s.height_eq]; exact hg.height_nonneg
  area_lt := (s.tiled hg.tiled).area_lt
  size_eq := (s.tiled hg.tiled).size_eq
  start_x := by rw [s.width_eq, s.start_eq]; exact hg.start_x
  start_y := by rw [s.height_eq, s.start_eq]; exact hg.start_y

end SameShape

/-- Setting a tile keeps the shape. -/
theorem sameShape_setTile (g : Grid) (c : Cell) (t : Tile) : SameShape g (g.setTile c t) := by
  rw [setTile]
  split
  · exact ⟨rfl, rfl, by simp, rfl, rfl⟩
  · exact .refl g

theorem Tiled.tiles_setTile {g : Grid} (hg : g.Tiled) {c : Cell} (hc : g.inBounds c = true)
    (t : Tile) : (g.setTile c t).tiles = g.tiles.setIfInBounds (g.indexOf c) t := by
  have hpos := hg.toInt_position hc
  have hle : 0 ≤ g.position c := by
    rw [Int32.le_iff_toInt_le, Int32.toInt_zero]
    exact hpos.2.1
  simp [setTile, hc, hle, indexOf]

/-- **A tile that is set is seen at its cell**, and nowhere else. -/
theorem Tiled.tile_setTile {g : Grid} (hg : g.Tiled) {c : Cell} (hc : g.inBounds c = true)
    (t : Tile) (d : Cell) :
    (g.setTile c t).tile d = if d = c then .ok (some t) else g.tile d := by
  have hs := sameShape_setTile g c t
  cases hd : g.inBounds d with
  | false =>
    have hne : d ≠ c := fun h => by rw [h, hc] at hd; cases hd
    rw [if_neg hne, tile_of_not_inBounds hd, tile_of_not_inBounds ((hs.inBounds_eq d).trans hd)]
  | true =>
    rw [(hs.tiled hg).tile_of_inBounds ((hs.inBounds_eq d).trans hd), hs.indexOf_eq,
      hg.tiles_setTile hc, hg.tile_of_inBounds hd]
    by_cases hdc : d = c
    · subst hdc
      rw [if_pos rfl, Array.getElem?_setIfInBounds_self_of_lt (hg.indexOf_lt hd)]
    · have hne : g.indexOf c ≠ g.indexOf d := fun h => hdc (hg.indexOf_injective hd hc h.symm)
      rw [if_neg hdc, Array.getElem?_setIfInBounds_ne hne]

/-- **A tile that is set is counted** in place of the one that was there. -/
theorem Tiled.count_setTile_add {g : Grid} (hg : g.Tiled) {c : Cell} {old : Tile}
    (hc : g.tile c = .ok (some old)) (t kind : Tile) :
    (g.setTile c t).count kind + (if old = kind then 1 else 0)
      = g.count kind + (if t = kind then 1 else 0) := by
  have hin := inBounds_of_tile hc
  have hlt := hg.indexOf_lt hin
  have hget : g.tiles[g.indexOf c] = old := by
    rw [hg.tile_of_inBounds hin, Array.getElem?_eq_getElem hlt] at hc
    exact Option.some.inj (Except.ok.inj hc)
  have hpos : old = kind → 0 < g.tiles.count kind := fun h =>
    Array.count_pos_iff.mpr (h ▸ mem_tiles_of_tile hc)
  rw [count, count, hg.tiles_setTile hin, Array.setIfInBounds, dif_pos hlt, Array.count_set, hget]
  by_cases hold : old = kind <;> by_cases hnew : t = kind <;> simp [hold, hnew]
  all_goals
    have := hpos hold
    omega

/-! ## One tile on many cells -/

/-- Puts a tile on every one of the cells. -/
def setAll (g : Grid) (t : Tile) (cells : List Cell) : Grid :=
  cells.foldl (fun g c => g.setTile c t) g

theorem sameShape_setAll (g : Grid) (t : Tile) (cells : List Cell) :
    SameShape g (g.setAll t cells) := by
  induction cells generalizing g with
  | nil => exact .refl g
  | cons c rest ih => exact (sameShape_setTile g c t).trans (ih _)

section SetAll

variable {g : Grid} {cells : List Cell}

/-- The tile is seen at these cells, and nowhere else. -/
theorem Tiled.tile_setAll (hg : g.Tiled) (hin : ∀ c ∈ cells, g.inBounds c = true) (t : Tile)
    (d : Cell) : (g.setAll t cells).tile d = if d ∈ cells then .ok (some t) else g.tile d := by
  induction cells generalizing g with
  | nil => simp [setAll]
  | cons c rest ih =>
    have hs := sameShape_setTile g c t
    have hrest := ih (hs.tiled hg) fun e he =>
      (hs.inBounds_eq e).trans (hin e (List.mem_cons_of_mem c he))
    rw [setAll, List.foldl_cons, ← setAll, hrest, hg.tile_setTile (hin c List.mem_cons_self)]
    by_cases hd : d ∈ rest <;> by_cases hdc : d = c <;> simp [hd, hdc]

/-- **Distinct cells of one kind are counted** among the other one afterwards. -/
theorem Tiled.count_setAll (hg : g.Tiled) {old : Tile}
    (hold : ∀ c ∈ cells, g.tile c = .ok (some old)) (hnodup : cells.Nodup) (t kind : Tile) :
    (g.setAll t cells).count kind + (if old = kind then cells.length else 0)
      = g.count kind + (if t = kind then cells.length else 0) := by
  induction cells generalizing g with
  | nil => simp [setAll]
  | cons c rest ih =>
    obtain ⟨hc, hrest⟩ := List.nodup_cons.mp hnodup
    have hfirst := hg.count_setTile_add (hold c List.mem_cons_self) t kind
    have hkept (d : Cell) (hd : d ∈ rest) : (g.setTile c t).tile d = .ok (some old) := by
      have hne : d ≠ c := fun h => hc (h ▸ hd)
      rw [hg.tile_setTile (inBounds_of_tile (hold c List.mem_cons_self)), if_neg hne]
      exact hold d (List.mem_cons_of_mem c hd)
    have hothers := ih ((sameShape_setTile g c t).tiled hg) hkept hrest
    rw [setAll, List.foldl_cons, ← setAll, List.length_cons]
    split_ifs at hfirst hothers ⊢ <;> omega

end SetAll

end Grid

end BlockCoding
