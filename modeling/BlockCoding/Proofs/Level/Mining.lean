import BlockCoding.Proofs.Level.Worlds
import BlockCoding.Proofs.Random
import BlockCoding.Proofs.Stage.Images
import BlockCoding.Proofs.Stage.Spacing

/-!
# Proofs/Level/Mining — what a mine holds

Gems are placed before asteroids, and a cell that keeps its distance is not one that was taken
before, since a cell is no distance from itself (`fresh_placeOne`).  So the cells that found room
are all distinct, and none is the start (`OneByOne.nodup_withRoom`): no tile is put on another one
(`mined_setAll`).  `mined_generate` sums it up for points of the plane, which stand for cells and
are what is placed: a mine holds a gem or an asteroid for each that found room, and paths.
-/

namespace BlockCoding

/-! ## Placements that found room -/

namespace Spread

variable {α : Type} {taken : List α} {placed : List (Placement α)}

theorem withRoom_append (placed more : List (Placement α)) :
    withRoom (placed ++ more) = withRoom placed ++ withRoom more := by
  rw [withRoom, List.filter_append, List.map_append, withRoom, withRoom]

theorem withRoom_map {β : Type} (f : α → β) (placed : List (Placement α)) :
    withRoom (placed.map (Placement.map f)) = (withRoom placed).map f := by
  rw [withRoom, List.filter_map, List.map_map, withRoom, List.map_map]
  rfl

/-- **What found room is distinct** from one another and from what was taken, if each point is from
those that were taken before it. -/
theorem OneByOne.nodup_withRoom
    (h : OneByOne (fun taken p => p.spaced = true → p.point ∉ taken) taken placed) :
    (withRoom placed).Nodup ∧ ∀ c ∈ withRoom placed, c ∉ taken := by
  induction h with
  | nil => exact ⟨List.nodup_nil, fun c hc => absurd hc List.not_mem_nil⟩
  | @cons taken p placed first _ ih =>
    obtain ⟨hnodup, hfresh⟩ := ih
    have hrest (c : α) (hc : c ∈ withRoom placed) : c ∉ taken ∧ c ≠ p.point := by
      simpa using hfresh c hc
    cases hp : p.spaced with
    | false =>
      rw [withRoom, List.filter_cons_of_neg (by simp [hp]), ← withRoom]
      exact ⟨hnodup, fun c hc => (hrest c hc).1⟩
    | true =>
      rw [withRoom, List.filter_cons_of_pos hp, List.map_cons, ← withRoom]
      refine ⟨List.nodup_cons.mpr ⟨fun hmem => (hrest _ hmem).2 rfl, hnodup⟩, fun c hc => ?_⟩
      rcases List.mem_cons.mp hc with rfl | hc
      · exact first hp
      · exact (hrest c hc).1

end Spread

namespace Mine

open Spread

variable {σ : Type} [RandomSource σ] {c : Cell}

/-! ## Cells as points -/

/-- The cell of a point: its coordinates without their fractions. -/
def toCell (p : Point) : Cell := ⟨p.x.toModel.toInt32, p.y.toModel.toInt32⟩

theorem exists_codeCell (hc : bare.inBounds c = true) :
    ∃ x < 6, ∃ y < 6, c = Grid.codeCell x y := by
  obtain ⟨⟨hx₀, hx⟩, hy₀, hy⟩ := Grid.inBounds_iff.mp hc
  have hwidth : bare.width.toInt = 6 := rfl
  have hheight : bare.height.toInt = 6 := rfl
  obtain ⟨x, hxc⟩ := Int.eq_ofNat_of_zero_le hx₀
  obtain ⟨y, hyc⟩ := Int.eq_ofNat_of_zero_le hy₀
  obtain ⟨hcx, hcy⟩ := Grid.toInt_codeCell (x := x) (y := y) (by omega) (by omega)
  refine ⟨x, by omega, y, by omega, ?_⟩
  cases c
  exact congrArg₂ Cell.mk (Int32.toInt_inj.mp (hxc.trans hcx.symm))
    (Int32.toInt_inj.mp (hyc.trans hcy.symm))

/-- Each cell of a mine is the cell of its point, and too near to itself. -/
private theorem checked : ∀ x < 6, ∀ y < 6,
    toCell (toPoint (Grid.codeCell x y)) = Grid.codeCell x y ∧
      (distance (Grid.codeCell x y) (Grid.codeCell x y)).isNaN = false ∧
      ¬ spacing.minDistance ≤ distance (Grid.codeCell x y) (Grid.codeCell x y) := by
  decide +kernel

theorem toCell_toPoint (hc : bare.inBounds c = true) : toCell (toPoint c) = c := by
  obtain ⟨x, hx, y, hy, rfl⟩ := exists_codeCell hc
  exact (checked x hx y hy).1

theorem near_self (hc : bare.inBounds c = true) :
    (distance c c).isNaN = false ∧ ¬ spacing.minDistance ≤ distance c c := by
  obtain ⟨x, hx, y, hy, rfl⟩ := exists_codeCell hc
  exact (checked x hx y hy).2

theorem tiled_bare : bare.Tiled := ⟨by decide, by decide⟩

/-- What is drawn is a cell of the mine. -/
theorem inBounds_sample (source : σ) : bare.inBounds (sample source).1 = true := by
  have hdrawn (source : σ) : ∃ n : Nat, n < 6 ∧
      (RandomSource.below side source).1.toInt32 = Int32.ofNat n := by
    have hlt := RandomSource.below_lt (n := side) (by decide) source
    exact ⟨_, UInt32.lt_iff_toNat_lt.mp hlt, by rw [← UInt32.toInt32_ofNat', UInt32.ofNat_toNat]⟩
  obtain ⟨x, hx, hxe⟩ := hdrawn source
  obtain ⟨y, hy, hye⟩ := hdrawn (RandomSource.below side source).2
  have hcell : (sample source).1 = Grid.codeCell x y := congrArg₂ Cell.mk hxe hye
  have hwidth : bare.width.toInt = 6 := rfl
  have hheight : bare.height.toInt = 6 := rfl
  rw [hcell]
  exact (tiled_bare.indexOf_codeCell (by omega) (by omega)).1

/-! ## Placing cells -/

/-- **A placement of a cell of the mine**, and one that was not taken if it found room. -/
structure Fresh (taken : List Cell) (p : Placement Cell) : Prop where
  inBounds : bare.inBounds p.point = true
  notMem : p.spaced = true → p.point ∉ taken

theorem fresh_placeOne (taken : List Cell) (source : σ) :
    Fresh taken (placeOne distance spacing sample taken source).1 := by
  have hmin : spacing.minDistance.isNaN = false := by decide
  have hin := placeOne_of_forall (bare.inBounds · = true) inBounds_sample distance spacing taken
    source
  refine ⟨hin, fun hspaced htaken => ?_⟩
  obtain ⟨hnumber, hnear⟩ := near_self hin
  have hkeeps := keeps_placeOne distance spacing sample hmin taken source
  exact hnear (hkeeps.apart hspaced _ htaken hnumber)

/-- **The cells that found room in two rounds** are cells of the mine, all distinct and none the
start. -/
theorem cells_of_rounds {gems asteroids : List (Placement Cell)}
    (h : OneByOne Fresh [start] (gems ++ asteroids)) :
    (start :: (withRoom gems ++ withRoom asteroids)).Nodup ∧
      ∀ c ∈ withRoom gems ++ withRoom asteroids, bare.inBounds c = true := by
  obtain ⟨hnodup, hnew⟩ := (h.imp fun _ _ hfresh => hfresh.notMem).nodup_withRoom
  rw [← withRoom_append]
  refine ⟨List.nodup_cons.mpr ⟨fun hmem => hnew _ hmem (List.mem_singleton_self _), hnodup⟩,
    fun c hc => ?_⟩
  obtain ⟨p, hp, rfl⟩ := List.mem_map.mp hc
  obtain ⟨before, after, split⟩ := List.append_of_mem (List.mem_of_mem_filter hp)
  exact (h.of_split split).inBounds

/-- **A mine is generated in two rounds** that place cells one after the other. -/
theorem generate_eq (source : σ) : ∃ gems asteroids taken taken' later last,
    place distance spacing sample gemCount [start] source = (gems, taken, later) ∧
      place distance spacing sample asteroidCount taken later = (asteroids, taken', last) ∧
      generate source
        = ((bare.setAll .collectible (withRoom gems)).setAll .wall (withRoom asteroids), last) ∧
      (gems.length = gemCount ∧ asteroids.length = asteroidCount) ∧
      OneByOne Fresh [start] (gems ++ asteroids) := by
  obtain ⟨hfour, htaken, hgems⟩ := place_oneByOne distance spacing sample fresh_placeOne gemCount
    [start] source
  rcases hfirst : place distance spacing sample gemCount [start] source with ⟨gems, taken, later⟩
  rw [hfirst] at hfour htaken hgems
  obtain ⟨hfive, -, hasteroids⟩ := place_oneByOne distance spacing sample fresh_placeOne
    asteroidCount taken later
  rcases hthen : place distance spacing sample asteroidCount taken later
    with ⟨asteroids, taken', last⟩
  rw [hthen] at hfive hasteroids
  refine ⟨gems, asteroids, taken, taken', later, last, rfl, hthen, ?_, ⟨hfour, hfive⟩,
    hgems.append (htaken ▸ hasteroids)⟩
  simp only [generate, hfirst, hthen, putAll_eq]

/-! ## What a mine holds -/

/-- **A mine with gems and asteroids at these cells**, all of them distinct and none the start, and
paths at all others. -/
structure Mined (g : Grid) (gems asteroids : List Cell) : Prop where
  width_eq : g.width = 6
  height_eq : g.height = 6
  size_eq : g.tiles.size = 36
  start_eq : g.start = ⟨0, 0⟩
  startHeading_eq : g.startHeading = .right
  nodup : (g.start :: (gems ++ asteroids)).Nodup
  inBounds : ∀ c ∈ gems ++ asteroids, g.inBounds c = true
  tile_eq : ∀ c, g.inBounds c = true → g.tile c = .ok (some
    (if c ∈ gems then .collectible else if c ∈ asteroids then .wall else .path))
  count_collectible : g.count .collectible = gems.length
  count_wall : g.count .wall = asteroids.length

theorem tile_bare (hc : bare.inBounds c = true) : bare.tile c = .ok (some .path) := by
  rw [tiled_bare.tile_of_inBounds hc]
  have hlt := tiled_bare.indexOf_lt hc
  rw [Array.getElem?_eq_getElem hlt]
  simp [bare, Grid.filled]

/-- Putting gems and then asteroids on distinct cells, none the start, makes a mine. -/
theorem mined_setAll {gems asteroids : List Cell} (hnodup : (start :: (gems ++ asteroids)).Nodup)
    (hin : ∀ c ∈ gems ++ asteroids, bare.inBounds c = true) :
    Mined ((bare.setAll .collectible gems).setAll .wall asteroids) gems asteroids := by
  have hfirst := Grid.sameShape_setAll bare .collectible gems
  have hboth := hfirst.trans (Grid.sameShape_setAll _ .wall asteroids)
  obtain ⟨hgems, hasteroids, hapart⟩ := List.nodup_append.mp (List.nodup_cons.mp hnodup).2
  have hinGems (c : Cell) (hc : c ∈ gems) := hin c (List.mem_append_left _ hc)
  have hinAsteroids (c : Cell) (hc : c ∈ asteroids) := hin c (List.mem_append_right _ hc)
  have htiled := hfirst.tiled tiled_bare
  have htile (c : Cell) := tiled_bare.tile_setAll hinGems .collectible c
  have hfree (c : Cell) (hc : c ∈ asteroids) :
      (bare.setAll .collectible gems).tile c = .ok (some .path) := by
    rw [htile, if_neg fun hgem => hapart c hgem c hc rfl, tile_bare (hinAsteroids c hc)]
  have hcount (kind : Tile) (hkind : Tile.path ≠ kind) :
      ((bare.setAll .collectible gems).setAll .wall asteroids).count kind
        = bare.count kind + (if .collectible = kind then gems.length else 0)
          + (if .wall = kind then asteroids.length else 0) := by
    have hfirst := tiled_bare.count_setAll (fun c hc => tile_bare (hinGems c hc)) hgems
      .collectible kind
    have hthen := htiled.count_setAll hfree hasteroids .wall kind
    rw [if_neg hkind, Nat.add_zero] at hfirst hthen
    rw [hthen, hfirst]
  exact
    { width_eq := hboth.width_eq
      height_eq := hboth.height_eq
      size_eq := hboth.size_eq
      start_eq := hboth.start_eq
      startHeading_eq := hboth.startHeading_eq
      nodup := hboth.start_eq ▸ hnodup
      inBounds := fun c hc => (hboth.inBounds_eq c).trans (hin c hc)
      tile_eq := fun c hc => by
        have hstays (d : Cell) (hd : d ∈ asteroids) :=
          (hfirst.inBounds_eq d).trans (hinAsteroids d hd)
        rw [htiled.tile_setAll hstays .wall c, htile,
          tile_bare ((hboth.inBounds_eq c).symm.trans hc)]
        by_cases hgem : c ∈ gems <;> by_cases hasteroid : c ∈ asteroids
        · exact absurd rfl (hapart c hgem c hasteroid)
        all_goals simp [hgem, hasteroid]
      count_collectible := by
        have hbare : bare.count .collectible = 0 := by decide
        simp [hcount, hbare]
      count_wall := by
        have hbare : bare.count .wall = 0 := by decide
        simp [hcount, hbare] }

/-- The start is free. -/
theorem Mined.tile_start {g : Grid} {gems asteroids : List Cell} (h : Mined g gems asteroids) :
    g.tile g.start = .ok (some .path) := by
  obtain ⟨hfree, -⟩ := List.nodup_cons.mp h.nodup
  rw [List.mem_append, not_or] at hfree
  have hin : g.inBounds g.start = true := by
    rw [Grid.inBounds, h.width_eq, h.height_eq, h.start_eq]
    decide
  rw [h.tile_eq _ hin, if_neg hfree.1, if_neg hfree.2]

/-! ## Placing points -/

/-- The point of a cell of the mine; the column is drawn first. -/
def samplePoint (source : σ) : Point × σ :=
  let (x, source) := RandomSource.below side source
  let (y, source) := RandomSource.below side source
  (⟨Float32.ofInt x.toInt32.toInt, Float32.ofInt y.toInt32.toInt⟩, source)

/-- Placing the points of cells is placing cells. -/
theorem place_samplePoint (count : Nat) (taken : List Cell) (source : σ) :
    place Point.distance spacing samplePoint count (taken.map toPoint) source
      = (place distance spacing sample count taken source).map
          (List.map (Placement.map toPoint)) (Prod.map (List.map toPoint) id) :=
  place_map toPoint Point.distance spacing sample count taken source

/-- The cells of the points that found room are the cells that did. -/
theorem map_toCell_withRoom {placed : List (Placement Cell)}
    (hin : ∀ c ∈ withRoom placed, bare.inBounds c = true) :
    (withRoom (placed.map (Placement.map toPoint))).map toCell = withRoom placed := by
  rw [withRoom_map, List.map_map]
  calc (withRoom placed).map (toCell ∘ toPoint)
      = (withRoom placed).map id := List.map_congr_left fun c hc => toCell_toPoint (hin c hc)
    _ = withRoom placed := List.map_id _

/-- There are as many gems and asteroids as placements that found room. -/
theorem Mined.counts {g : Grid} {gems asteroids : List (Placement Point)}
    (h : Mined g ((withRoom gems).map toCell) ((withRoom asteroids).map toCell)) :
    g.count .collectible = gems.countP Placement.spaced ∧
      g.count .wall = asteroids.countP Placement.spaced := by
  simpa using And.intro h.count_collectible h.count_wall

/-- **What a generated mine holds**, whatever is drawn: the points of its cells are placed, first
for the gems and then for the asteroids, and there is a gem or an asteroid at the cell of each point
that found room.  These cells are distinct and none is the start; all others are paths. -/
theorem mined_generate (source : σ) : ∃ gems asteroids taken taken' later last g,
    place Point.distance spacing samplePoint 4 [⟨0, 0⟩] source = (gems, taken, later) ∧
      place Point.distance spacing samplePoint 5 taken later = (asteroids, taken', last) ∧
      generate source = (g, last) ∧
      Mined g ((withRoom gems).map toCell) ((withRoom asteroids).map toCell) ∧
      g.tile g.start = .ok (some .path) ∧
      (g.count .collectible = gems.countP Placement.spaced ∧ g.count .collectible ≤ 4) ∧
      (g.count .wall = asteroids.countP Placement.spaced ∧ g.count .wall ≤ 5) ∧
      ((∀ p ∈ gems ++ asteroids, p.spaced = true) →
        g.count .collectible = 4 ∧ g.count .wall = 5) := by
  obtain ⟨gems, asteroids, taken, taken', later, last, hfirst, hthen, hgenerate, ⟨hfour, hfive⟩,
    hplaced⟩ := generate_eq source
  have hpoints := place_samplePoint gemCount [start] source
  have hpoints' := place_samplePoint asteroidCount taken later
  rw [hfirst] at hpoints
  rw [hthen] at hpoints'
  obtain ⟨hnodup, hin⟩ := cells_of_rounds hplaced
  have hmined : Mined ((bare.setAll .collectible (withRoom gems)).setAll .wall (withRoom asteroids))
      ((withRoom (gems.map (Placement.map toPoint))).map toCell)
      ((withRoom (asteroids.map (Placement.map toPoint))).map toCell) := by
    rw [map_toCell_withRoom fun c hc => hin c (List.mem_append_left _ hc),
      map_toCell_withRoom fun c hc => hin c (List.mem_append_right _ hc)]
    exact mined_setAll hnodup hin
  obtain ⟨hgems, hasteroids⟩ := hmined.counts
  have hfour' : (gems.map (Placement.map toPoint)).length = 4 := (List.length_map _).trans hfour
  have hfive' : (asteroids.map (Placement.map toPoint)).length = 5 :=
    (List.length_map _).trans hfive
  refine ⟨_, _, _, _, _, last, _, hpoints, hpoints', hgenerate, hmined, hmined.tile_start,
    ⟨hgems, by rw [hgems, ← hfour']; exact List.countP_le_length⟩,
    ⟨hasteroids, by rw [hasteroids, ← hfive']; exact List.countP_le_length⟩,
    fun hspaced => ⟨?_, ?_⟩⟩
  · rw [hgems, ← hfour']
    exact List.countP_eq_length.mpr fun p hp => hspaced p (List.mem_append_left _ hp)
  · rw [hasteroids, ← hfive']
    exact List.countP_eq_length.mpr fun p hp => hspaced p (List.mem_append_right _ hp)

end Mine

end BlockCoding
