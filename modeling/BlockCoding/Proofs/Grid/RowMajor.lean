import BlockCoding.Proofs.Grid.Chains
import BlockCoding.Proofs.Grid.Clearing
import Mathlib.Data.Set.Card

/-!
# Proofs/Grid/RowMajor — the stored tiles are the cells inside the bounds, row by row

A tile's position is computed from its cell, and its cell from its position, by formulas that know
nothing of each other.  On a tiled grid with columns they are inverse (`Tiled.indexOf_cellAt`,
`Tiled.cellAt_indexOf`), so listing the stored tiles lists the cells that have one, in the order in
which a page is read (`Tiled.mem_listing`, `Tiled.pairwise_listing`), and counting the stored tiles
counts cells (`Tiled.encard_tile`).  `Retiled` says what replacing one tile comes to; setting and
clearing do that or nothing.  `tiles_row_by_row` is all of it.
-/

namespace BlockCoding

/-- The order in which a page is read: by row, then by column. -/
def Cell.ReadBefore (a b : Cell) : Prop := a.y < b.y ∨ a.y = b.y ∧ a.x < b.x

theorem Cell.ReadBefore.ne {a b : Cell} (h : a.ReadBefore b) : a ≠ b := by
  rintro rfl
  rcases h with hrow | ⟨-, hcolumn⟩
  · exact Int32.lt_irrefl hrow
  · exact Int32.lt_irrefl hcolumn

namespace Grid

variable {g : Grid} {i j : Nat}

/-! ## Positions and cells -/

/-- The cell at a position has the remainder by the width as its column, and the quotient as its
row. -/
theorem Tiled.toInt_cellAt (hg : g.Tiled) (hw : 0 < g.width.toInt) (hi : i < g.tiles.size) :
    (g.cellAt i).x.toInt = i % g.width.toInt ∧ (g.cellAt i).y.toInt = i / g.width.toInt := by
  have hsize := hg.size_eq
  have harea := hg.area_lt
  have hposition : (Int32.ofNat i).toInt = i := Int32.toInt_ofNat_of_lt (by omega)
  have hrow : 0 ≤ (i : Int) / g.width.toInt := Int.ediv_nonneg (by omega) hw.le
  have hrow' : (i : Int) / g.width.toInt ≤ i := Int.ediv_le_self _ (by omega)
  rw [cellAt, Int32.toInt_mod, Int32.toInt_div, hposition, Int.tmod_eq_emod_of_nonneg (by omega),
    Int.tdiv_eq_ediv_of_nonneg (by omega)]
  exact ⟨rfl, Int.bmod_eq_of_le_mul_two (by omega) (by omega)⟩

/-- Tiles are stored for cells inside the bounds only. -/
theorem Tiled.inBounds_cellAt (hg : g.Tiled) (hw : 0 < g.width.toInt) (hi : i < g.tiles.size) :
    g.inBounds (g.cellAt i) = true := by
  obtain ⟨hx, hy⟩ := hg.toInt_cellAt hw hi
  have hsize := hg.size_eq
  rw [Int.mul_comm] at hsize
  rw [inBounds_iff, hx, hy]
  exact ⟨⟨Int.emod_nonneg _ hw.ne', Int.emod_lt_of_pos _ hw⟩, Int.ediv_nonneg (by omega) hw.le,
    Int.ediv_lt_of_lt_mul hw (by omega)⟩

/-- **The cell at a position has that position.** -/
theorem Tiled.indexOf_cellAt (hg : g.Tiled) (hw : 0 < g.width.toInt) (hi : i < g.tiles.size) :
    g.indexOf (g.cellAt i) = i := by
  obtain ⟨hx, hy⟩ := hg.toInt_cellAt hw hi
  have hposition := (hg.toInt_position (hg.inBounds_cellAt hw hi)).1
  rw [hx, hy, Int.ediv_mul_add_emod] at hposition
  rw [indexOf, ← Int32.toNat_toInt, hposition, Int.toNat_natCast]

/-- **A cell inside the bounds is the one at its position.** -/
theorem Tiled.cellAt_indexOf (hg : g.Tiled) (hw : 0 < g.width.toInt) {c : Cell}
    (hc : g.inBounds c = true) : g.cellAt (g.indexOf c) = c :=
  hg.indexOf_injective (hg.inBounds_cellAt hw (hg.indexOf_lt hc)) hc
    (hg.indexOf_cellAt hw (hg.indexOf_lt hc))

/-- The tile of a cell is the one stored at its position. -/
theorem Tiled.tile_cellAt (hg : g.Tiled) (hw : 0 < g.width.toInt) (hi : i < g.tiles.size) :
    g.tile (g.cellAt i) = .ok (some g.tiles[i]) := by
  rw [hg.tile_of_inBounds (hg.inBounds_cellAt hw hi), hg.indexOf_cellAt hw hi,
    Array.getElem?_eq_getElem hi]

/-- **Positions count in the order of reading.** -/
theorem Tiled.readBefore_cellAt (hg : g.Tiled) (hw : 0 < g.width.toInt) (hij : i < j)
    (hj : j < g.tiles.size) : (g.cellAt i).ReadBefore (g.cellAt j) := by
  obtain ⟨hxi, hyi⟩ := hg.toInt_cellAt hw (hij.trans hj)
  obtain ⟨hxj, hyj⟩ := hg.toInt_cellAt hw hj
  have hlt : (i : Int) < j := Int.ofNat_lt.mpr hij
  rw [Cell.ReadBefore, Int32.lt_iff_toInt_lt, Int32.lt_iff_toInt_lt, ← Int32.toInt_inj, hxi, hyi,
    hxj, hyj]
  rcases (Int.ediv_le_ediv hw hlt.le).lt_or_eq with hrow | hrow
  · exact .inl hrow
  · -- In one row, the remainders differ as the positions do.
    have hi := Int.emod_add_mul_ediv i g.width.toInt
    have hj := Int.emod_add_mul_ediv j g.width.toInt
    rw [hrow] at hi
    exact .inr ⟨hrow, by omega⟩

/-! ## Listing the cells -/

/-- The stored tiles, each with its cell. -/
def listing (g : Grid) : List (Cell × Tile) := g.tiles.toList.mapIdx fun i t => (g.cellAt i, t)

/-- With columns to lay them out in, the cells can be listed. -/
theorem cells_eq_listing (hw : 0 < g.width.toInt) : g.cells = .ok g.listing := by
  have hne : g.width ≠ 0 := by
    intro hzero
    rw [hzero] at hw
    exact absurd hw (by decide)
  simp [cells, listing, hne]

/-- **The listing shows the cells that have a tile, with that tile.** -/
theorem Tiled.mem_listing (hg : g.Tiled) (hw : 0 < g.width.toInt) {c : Cell} {t : Tile} :
    (c, t) ∈ g.listing ↔ g.tile c = .ok (some t) := by
  rw [listing, List.mem_mapIdx]
  constructor
  · rintro ⟨i, hi, hentry⟩
    obtain ⟨rfl, rfl⟩ := Prod.mk.inj hentry
    exact hg.tile_cellAt hw hi
  · intro htile
    have hc := inBounds_of_tile htile
    have hi := hg.indexOf_lt hc
    have hstored := hg.tile_cellAt hw hi
    rw [hg.cellAt_indexOf hw hc, htile] at hstored
    refine ⟨g.indexOf c, hi, ?_⟩
    rw [hg.cellAt_indexOf hw hc]
    exact congrArg _ (Option.some.inj (Except.ok.inj hstored)).symm

/-- A cell inside the bounds has a tile. -/
theorem Tiled.exists_tile (hg : g.Tiled) {c : Cell} (hc : g.inBounds c = true) :
    ∃ t, g.tile c = .ok (some t) := by
  obtain ⟨seen, hseen, hsome⟩ := hg.tile_eq_ok c
  obtain ⟨t, rfl⟩ := Option.isSome_iff_exists.mp (hsome.trans hc)
  exact ⟨t, hseen⟩

/-- The cells of the listing are those inside the bounds. -/
theorem Tiled.mem_map_listing (hg : g.Tiled) (hw : 0 < g.width.toInt) {c : Cell} :
    c ∈ g.listing.map Prod.fst ↔ g.inBounds c = true := by
  constructor
  · intro hmem
    obtain ⟨⟨c, t⟩, hentry, rfl⟩ := List.mem_map.mp hmem
    exact inBounds_of_tile ((hg.mem_listing hw).mp hentry)
  · intro hc
    obtain ⟨t, htile⟩ := hg.exists_tile hc
    exact List.mem_map_of_mem ((hg.mem_listing hw).mpr htile)

/-- **The listing goes row by row**, and through each row from left to right. -/
theorem Tiled.pairwise_listing (hg : g.Tiled) (hw : 0 < g.width.toInt) :
    (g.listing.map Prod.fst).Pairwise Cell.ReadBefore := by
  refine List.pairwise_iff_getElem.mpr fun i j hi hj hij => ?_
  have hj' : j < g.tiles.size := by simpa [listing] using hj
  simpa [listing] using hg.readBefore_cellAt hw hij hj'

/-- No cell is listed twice. -/
theorem Tiled.nodup_listing (hg : g.Tiled) (hw : 0 < g.width.toInt) :
    (g.listing.map Prod.fst).Nodup := (hg.pairwise_listing hw).imp Cell.ReadBefore.ne

/-! ## Counting the cells of a kind -/

/-- The cells of a kind, in the order of reading. -/
def cellsOf (g : Grid) (kind : Tile) : List Cell :=
  (g.listing.filter fun entry => entry.2 == kind).map Prod.fst

theorem Tiled.mem_cellsOf (hg : g.Tiled) (hw : 0 < g.width.toInt) {kind : Tile} {c : Cell} :
    c ∈ g.cellsOf kind ↔ g.tile c = .ok (some kind) := by
  simp [cellsOf, ← hg.mem_listing hw]

theorem Tiled.nodup_cellsOf (hg : g.Tiled) (hw : 0 < g.width.toInt) (kind : Tile) :
    (g.cellsOf kind).Nodup :=
  (hg.nodup_listing hw).sublist (List.filter_sublist.map Prod.fst)

/-- The listing shows the stored tiles, in the order of storage. -/
theorem map_snd_listing (g : Grid) : g.listing.map Prod.snd = g.tiles.toList :=
  List.ext_getElem (by simp [listing]) (by simp [listing])

theorem length_cellsOf (g : Grid) (kind : Tile) : (g.cellsOf kind).length = g.count kind := by
  rw [cellsOf, List.length_map, ← List.countP_eq_length_filter, count, ← Array.count_toList,
    ← map_snd_listing, List.count_eq_countP, List.countP_map]
  rfl

/-- **There are as many cells of a kind as tiles of it.** -/
theorem Tiled.encard_tile (hg : g.Tiled) (hw : 0 < g.width.toInt) (kind : Tile) :
    {c | g.tile c = .ok (some kind)}.encard = g.count kind := by
  have hset : {c | g.tile c = .ok (some kind)} = ((g.cellsOf kind).toFinset : Set Cell) := by
    ext c
    simp [hg.mem_cellsOf hw]
  rw [hset, Set.encard_coe_eq_coe_finsetCard,
    List.toFinset_card_of_nodup (hg.nodup_cellsOf hw kind), length_cellsOf]

/-! ## Replacing a tile -/

/-- **One tile replaced**: the cell that had the tile `old` has the tile `new`, every other cell has
the tile that it had, and the counts say so. -/
structure Retiled (g : Grid) (c : Cell) (old new : Tile) (h : Grid) : Prop where
  shape : SameShape g h
  there : h.tile c = .ok (some new)
  elsewhere : ∀ d, d ≠ c → h.tile d = g.tile d
  count_add : ∀ kind, h.count kind + (if old = kind then 1 else 0)
    = g.count kind + (if new = kind then 1 else 0)

/-- **Setting a tile replaces the one that is there.** -/
theorem Tiled.retiled_setTile (hg : g.Tiled) {c : Cell} {old : Tile}
    (hc : g.tile c = .ok (some old)) (new : Tile) : Retiled g c old new (g.setTile c new) where
  shape := sameShape_setTile g c new
  there := by rw [hg.tile_setTile (inBounds_of_tile hc), if_pos rfl]
  elsewhere d hd := by rw [hg.tile_setTile (inBounds_of_tile hc), if_neg hd]
  count_add := hg.count_setTile_add hc new

/-- Outside the bounds nothing is set. -/
theorem setTile_of_not_inBounds {c : Cell} (hc : g.inBounds c = false) (t : Tile) :
    g.setTile c t = g := by simp [setTile, hc]

/-- **The tiles are the cells inside the bounds, row by row.**  On a tiled grid with columns, the
listing goes through the cells in the order of reading, shows each cell inside the bounds once and
no other, and each with its tile.  Looking at a cell sees a tile exactly inside the bounds, and the
tiles of a kind are as many as the cells that show it.  Setting a tile inside the bounds replaces
the one of that cell and no other, and outside the bounds nothing is set; clearing replaces a
collectible by a path, and leaves everything else alone. -/
theorem tiles_row_by_row {g : Grid} (hg : g.Tiled) (hw : 0 < g.width.toInt) :
    (∃ listed, g.cells = .ok listed ∧ (listed.map Prod.fst).Pairwise Cell.ReadBefore ∧
      (∀ c, (listed.map Prod.fst).count c = if g.inBounds c = true then 1 else 0) ∧
      ∀ c t, (c, t) ∈ listed → g.tile c = .ok (some t)) ∧
    (∀ c, ∃ seen, g.tile c = .ok seen ∧ (seen = none ↔ g.inBounds c = false)) ∧
    (∀ kind, {c | g.inBounds c = true ∧ g.tile c = .ok (some kind)}.encard = g.count kind) ∧
    (∀ c t, (g.inBounds c = true → ∃ old, g.tile c = .ok (some old) ∧
        Retiled g c old t (g.setTile c t)) ∧
      (g.inBounds c = false → g.setTile c t = g)) ∧
    ∀ c, (g.tile c = .ok (some .collectible) →
        ∃ cleared, g.clear c = .ok (true, cleared) ∧ Retiled g c .collectible .path cleared) ∧
      (g.tile c ≠ .ok (some .collectible) → g.clear c = .ok (false, g)) := by
  refine ⟨⟨g.listing, cells_eq_listing hw, hg.pairwise_listing hw, fun c => ?_,
      fun c t hmem => (hg.mem_listing hw).mp hmem⟩, fun c => ?_, fun kind => ?_,
    fun c t => ⟨fun hc => ?_, fun hc => setTile_of_not_inBounds hc t⟩,
    fun c => ⟨fun hc => ?_, fun hc => ?_⟩⟩
  · rw [(hg.nodup_listing hw).count, if_congr (hg.mem_map_listing hw) rfl rfl]
  · obtain ⟨seen, hseen, hsome⟩ := hg.tile_eq_ok c
    exact ⟨seen, hseen, by rw [← hsome, Option.isSome_eq_false_iff, Option.isNone_iff_eq_none]⟩
  · rw [← hg.encard_tile hw kind]
    congr 1
    ext c
    exact and_iff_right_of_imp inBounds_of_tile
  · obtain ⟨old, htile⟩ := hg.exists_tile hc
    exact ⟨old, htile, hg.retiled_setTile htile t⟩
  · exact ⟨_, by rw [hg.clear_eq, if_pos hc], hg.retiled_setTile hc .path⟩
  · rw [hg.clear_eq, if_neg hc]

/-- The outpost, three columns wide and two rows high: its last cell can be cleared, its first one
cannot. -/
theorem tiles_row_by_row_outpost :
    outpost.Tiled ∧ 0 < outpost.width.toInt ∧
      (∃ listed, outpost.cells = .ok listed ∧ (listed.map Prod.fst).Pairwise Cell.ReadBefore ∧
        (listed.map Prod.fst).count ⟨1, 1⟩ = 1 ∧ (listed.map Prod.fst).count ⟨1, 2⟩ = 0) ∧
      {c | outpost.inBounds c = true ∧ outpost.tile c = .ok (some .wall)}.encard = 1 ∧
      (∃ cleared, outpost.clear ⟨2, 1⟩ = .ok (true, cleared) ∧
        cleared.tile ⟨2, 1⟩ = .ok (some .path) ∧ cleared.tile ⟨1, 0⟩ = .ok (some .wall) ∧
        cleared.count .collectible = 0 ∧ cleared.count .path = 2) ∧
      outpost.clear ⟨0, 0⟩ = .ok (false, outpost) := by
  have htiled : outpost.Tiled := ⟨by decide, by decide⟩
  have hwidth : 0 < outpost.width.toInt := by decide
  obtain ⟨⟨listed, hlisted, horder, hcount, -⟩, -, hkinds, -, hclear⟩ :=
    tiles_row_by_row htiled hwidth
  obtain ⟨cleared, hcleared, hretiled⟩ := (hclear ⟨2, 1⟩).1 (by decide +kernel)
  have hcollectibles : outpost.count .collectible = 1 := by decide +kernel
  have hpaths : outpost.count .path = 1 := by decide +kernel
  refine ⟨htiled, hwidth, ⟨listed, hlisted, horder, (hcount ⟨1, 1⟩).trans (by decide +kernel),
      (hcount ⟨1, 2⟩).trans (by decide +kernel)⟩, (hkinds .wall).trans (by decide +kernel),
    ⟨cleared, hcleared, hretiled.there, ?_, ?_, ?_⟩, (hclear ⟨0, 0⟩).2 (by decide +kernel)⟩
  · exact (hretiled.elsewhere ⟨1, 0⟩ (by decide)).trans (by decide +kernel)
  · simpa [hcollectibles] using hretiled.count_add .collectible
  · simpa [hpaths] using hretiled.count_add .path

end Grid

end BlockCoding
