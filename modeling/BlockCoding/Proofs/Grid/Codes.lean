import BlockCoding.Grid.Codes
import BlockCoding.Proofs.Fault
import BlockCoding.Proofs.Grid.Bounds

/-!
# Proofs/Grid/Codes — the grid of an accepted level

`accepted_of_ofCodes`: a matrix of codes that is read has full rows of known codes and one start,
and its grid shows the tile of each code at its place.  `Laid` is that much of it that does not
depend on the search, and `Laid.wellFormed` is what the other theories use.
-/

namespace BlockCoding.Grid

/-! ## Reading rows -/

/-- The row, as long as it is read, is read code by code. -/
theorem map_of_rowTiles {y x : Nat} {codes : List UInt8} {tiles : List Tile}
    (h : rowTiles y x codes = .ok tiles) : codes.map tileOfCode? = tiles.map some := by
  induction codes generalizing x tiles with
  | nil =>
    obtain rfl := Except.ok.inj h
    rfl
  | cons code codes ih =>
    rw [rowTiles] at h
    cases htile : tileOfCode? code with
    | none => simp only [htile] at h; cases h
    | some t =>
      simp only [htile] at h
      obtain ⟨ts, hts, h⟩ := bind_eq_ok.mp h
      obtain rfl := Except.ok.inj h
      rw [List.map_cons, List.map_cons, htile, ih hts]

/-- The rows, as long as they are read, are full and read one after the other. -/
theorem map_of_rowsTiles {width y : Nat} {rows : List (List UInt8)} {tiles : List Tile}
    (h : rowsTiles width y rows = .ok tiles) :
    (∀ row ∈ rows, row.length = width) ∧ rows.flatten.map tileOfCode? = tiles.map some := by
  induction rows generalizing y tiles with
  | nil =>
    obtain rfl := Except.ok.inj h
    exact ⟨by simp, rfl⟩
  | cons row rows ih =>
    rw [rowsTiles] at h
    by_cases hlen : row.length ≠ width
    · rw [if_pos hlen] at h
      cases h
    · rw [if_neg hlen] at h
      obtain ⟨here, hhere, h⟩ := bind_eq_ok.mp h
      obtain ⟨there, hthere, h⟩ := bind_eq_ok.mp h
      obtain rfl := Except.ok.inj h
      obtain ⟨hlens, hmap⟩ := ih hthere
      refine ⟨fun r hr => ?_, ?_⟩
      · rcases List.mem_cons.mp hr with rfl | hr
        · exact not_not.mp hlen
        · exact hlens r hr
      · rw [List.flatten_cons, List.map_append, List.map_append, map_of_rowTiles hhere, hmap]

/-- In full rows, the rows above and the cells to the left are counted. -/
theorem getElem?_flatten_of_full {α : Type} {width : Nat} {rows : List (List α)}
    (hlen : ∀ row ∈ rows, row.length = width) {x y : Nat} (hx : x < width) :
    rows.flatten[y * width + x]? = rows[y]?.bind (·[x]?) := by
  induction rows generalizing y with
  | nil => simp
  | cons row rows ih =>
    have hrow : row.length = width := hlen row List.mem_cons_self
    cases y with
    | zero =>
      rw [List.flatten_cons, Nat.zero_mul, Nat.zero_add, List.getElem?_append_left (by omega)]
      rfl
    | succ y =>
      have hshift : (y + 1) * width + x = row.length + (y * width + x) := by
        rw [Nat.add_mul, hrow]
        omega
      rw [List.flatten_cons, hshift, List.getElem?_append_right (by omega), Nat.add_sub_cancel_left,
        ih fun r hr => hlen r (List.mem_cons_of_mem _ hr)]
      rfl

theorem length_flatten_of_full {α : Type} {width : Nat} {rows : List (List α)}
    (hlen : ∀ row ∈ rows, row.length = width) : rows.flatten.length = rows.length * width := by
  induction rows with
  | nil => simp
  | cons row rows ih =>
    rw [List.flatten_cons, List.length_append, hlen row List.mem_cons_self,
      ih fun r hr => hlen r (List.mem_cons_of_mem _ hr), List.length_cons, Nat.add_mul]
    omega

/-- The starts are the cells of the codes that say so. -/
theorem mem_startCells {rows : List (List UInt8)} {c : Cell} :
    c ∈ startCells rows ↔ ∃ x y, rows[y]?.bind (·[x]?) = some 2 ∧ c = codeCell x y := by
  simp only [startCells, List.mem_flatMap, List.mem_filterMap, Prod.exists,
    List.mem_zipIdx_iff_getElem?]
  constructor
  · rintro ⟨row, y, hrow, code, x, hcode, h⟩
    by_cases htwo : code = 2
    · rw [if_pos htwo] at h
      subst htwo
      exact ⟨x, y, by rw [hrow]; exact hcode, (Option.some.inj h).symm⟩
    · rw [if_neg htwo] at h
      cases h
  · rintro ⟨x, y, h, rfl⟩
    obtain ⟨row, hrow, hcode⟩ := Option.bind_eq_some_iff.mp h
    exact ⟨row, y, hrow, 2, x, hcode, rfl⟩

/-! ## The cells of places -/

section Places

variable {g : Grid} {x y : Nat}

/-- The cell of a place that can be counted has its coordinates. -/
theorem toInt_codeCell (hx : x < 2147483648) (hy : y < 2147483648) :
    (codeCell x y).x.toInt = x ∧ (codeCell x y).y.toInt = y :=
  ⟨Int32.toInt_ofNat_of_lt hx, Int32.toInt_ofNat_of_lt hy⟩

/-- A place that the dimensions admit is a cell inside the bounds, whose tile is stored behind those
of the rows above and those to the left. -/
theorem Tiled.indexOf_codeCell (hg : g.Tiled) (hx : (x : Int) < g.width.toInt)
    (hy : (y : Int) < g.height.toInt) : g.inBounds (codeCell x y) = true ∧
      g.indexOf (codeCell x y) = y * g.width.toInt.toNat + x := by
  have hwidth := g.width.toInt_lt
  have hheight := g.height.toInt_lt
  obtain ⟨hcx, hcy⟩ := toInt_codeCell (x := x) (y := y) (by omega) (by omega)
  have hin : g.inBounds (codeCell x y) = true := by
    rw [inBounds_iff, hcx, hcy]
    omega
  refine ⟨hin, ?_⟩
  have hrows : (y : Int) * g.width.toInt = (y * g.width.toInt.toNat : Nat) := by
    rw [Int.natCast_mul, Int.toNat_of_nonneg (by omega)]
  have hposition := (hg.toInt_position hin).1
  rw [hcx, hcy] at hposition
  rw [indexOf, ← Int32.toNat_toInt, hposition]
  omega

end Places

/-! ## Accepted levels -/

/-- The number of columns of a matrix of codes: those of its first row. -/
def columns (rows : List (List UInt8)) : Nat := (rows.headD []).length

/-- The code in column `x` of row `y`. -/
def codeAt? (rows : List (List UInt8)) (x y : Nat) : Option UInt8 := rows[y]?.bind (·[x]?)

/-- In full rows, a code stands in a column and a row of the matrix. -/
theorem lt_of_codeAt? {rows : List (List UInt8)} (full : ∀ row ∈ rows, row.length = columns rows)
    {x y : Nat} {code : UInt8} (hcode : codeAt? rows x y = some code) :
    x < columns rows ∧ y < rows.length := by
  obtain ⟨row, hrow, hx⟩ := Option.bind_eq_some_iff.mp hcode
  refine ⟨?_, (List.getElem?_eq_some_iff.mp hrow).1⟩
  rw [← full row (List.mem_of_getElem? hrow)]
  exact (List.getElem?_eq_some_iff.mp hx).1

/-- **A matrix laid out as a grid**, wherever its goals may be: full rows of known codes with one
start, and the tile of each code at its place. -/
structure Laid (rows : List (List UInt8)) (g : Grid) : Prop where
  full : ∀ row ∈ rows, row.length = columns rows
  columns_pos : 0 < columns rows
  rows_pos : 0 < rows.length
  toInt_width : g.width.toInt = columns rows
  toInt_height : g.height.toInt = rows.length
  tiles : rows.flatten.map tileOfCode? = g.tiles.toList.map some
  starts : startCells rows = [g.start]
  startHeading : g.startHeading = .right

/-- **What a level that is read looks like.** -/
structure Accepted (rows : List (List UInt8)) (g : Grid) : Prop extends Laid rows g where
  reachable : g.goalReachable = .ok true

/-- Dimensions whose product is a coordinate are coordinates. -/
private theorem toInt_ofNat_of_mul_le {m n : Nat} (hn : 0 < n) (h : m * n ≤ 2147483647) :
    (Int32.ofNat m).toInt = m :=
  Int32.toInt_ofNat_of_lt (by have := Nat.le_mul_of_pos_right m hn; omega)

/-- The grid of a matrix, from its tiles and its start. -/
def layOut (rows : List (List UInt8)) (tiles : List Tile) (start : Cell) : Grid :=
  { width := Int32.ofNat (columns rows)
    height := Int32.ofNat rows.length
    tiles := tiles.toArray
    start
    startHeading := .right }

/-- Rows that are read with one start are laid out. -/
theorem laid_layOut {rows : List (List UInt8)} {tiles : List Tile} {start : Cell}
    (hpos : 0 < columns rows) (htiles : rowsTiles (columns rows) 0 rows = .ok tiles)
    (hstarts : startCells rows = [start]) (small : columns rows * rows.length ≤ 2147483647) :
    Laid rows (layOut rows tiles start) := by
  obtain ⟨hfull, hmap⟩ := map_of_rowsTiles htiles
  have hrows : 0 < rows.length := by
    match rows with
    | [] => cases hpos
    | _ :: _ => exact Nat.succ_pos _
  exact
    { full := hfull
      columns_pos := hpos
      rows_pos := hrows
      toInt_width := toInt_ofNat_of_mul_le hrows small
      toInt_height := toInt_ofNat_of_mul_le hpos (by rwa [Nat.mul_comm] at small)
      tiles := hmap
      starts := hstarts
      startHeading := rfl }

/-- A matrix whose first row is not empty is read row by row, before its starts are counted and a
goal is searched. -/
theorem ofCodes_eq {rows : List (List UInt8)} (hpos : 0 < columns rows) :
    ofCodes rows = (rowsTiles (columns rows) 0 rows >>= fun tiles =>
      match startCells rows with
      | [start] =>
        match (layOut rows tiles start).goalReachable with
        | .ok true => .ok (layOut rows tiles start)
        | _ => .error .unreachable
      | starts => .error (.startCount starts.length)) := by
  match rows with
  | [] | [] :: _ => cases hpos
  | (_ :: _) :: _ => rfl

/-- Nothing is read but matrices that are laid out and have a goal in reach. -/
theorem exists_of_ofCodes {rows : List (List UInt8)} {g : Grid} (h : ofCodes rows = .ok g) :
    0 < columns rows ∧ ∃ tiles start, rowsTiles (columns rows) 0 rows = .ok tiles ∧
      startCells rows = [start] ∧ g = layOut rows tiles start ∧ g.goalReachable = .ok true := by
  have hpos : 0 < columns rows := by
    match rows with
    | [] | [] :: _ => cases h
    | (_ :: _) :: _ => exact Nat.succ_pos _
  rw [ofCodes_eq hpos] at h
  obtain ⟨tiles, htiles, h⟩ := bind_eq_ok.mp h
  split at h
  · next start hstarts =>
    split at h
    · next hreach =>
      obtain rfl := Except.ok.inj h
      exact ⟨hpos, tiles, start, htiles, hstarts, rfl, hreach⟩
    · cases h
  · cases h

/-- **A level that is read is such a level.** -/
theorem accepted_of_ofCodes {rows : List (List UInt8)} {g : Grid} (h : ofCodes rows = .ok g)
    (small : columns rows * rows.length ≤ 2147483647) : Accepted rows g := by
  obtain ⟨hpos, tiles, start, htiles, hstarts, rfl, hreach⟩ := exists_of_ofCodes h
  exact ⟨laid_layOut hpos htiles hstarts small, hreach⟩

namespace Laid

variable {rows : List (List UInt8)} {g : Grid}

theorem size_eq (h : Laid rows g) : g.tiles.size = rows.length * columns rows := by
  have hlen := congrArg List.length h.tiles
  simp only [List.length_map, Array.length_toList, length_flatten_of_full h.full] at hlen
  exact hlen.symm

theorem tiled (h : Laid rows g) (small : columns rows * rows.length ≤ 2147483647) :
    g.Tiled where
  area_lt := by
    rw [h.toInt_width, h.toInt_height, ← Int.natCast_mul]
    omega
  size_eq := by rw [h.toInt_width, h.toInt_height, h.size_eq, Nat.mul_comm, Int.natCast_mul]

/-- A place in the matrix is a cell inside the bounds, counted row by row. -/
theorem inBounds_codeCell (h : Laid rows g)
    (small : columns rows * rows.length ≤ 2147483647) {x y : Nat} (hx : x < columns rows)
    (hy : y < rows.length) :
    g.inBounds (codeCell x y) = true ∧ g.indexOf (codeCell x y) = y * columns rows + x := by
  have hplace := (h.tiled small).indexOf_codeCell (x := x) (y := y)
    (by rw [h.toInt_width]; omega) (by rw [h.toInt_height]; omega)
  rwa [h.toInt_width, Int.toNat_natCast] at hplace

/-- A code of the matrix has a tile. -/
theorem exists_tile (h : Laid rows g) {x y : Nat} {code : UInt8}
    (hcode : codeAt? rows x y = some code) : ∃ t, tileOfCode? code = some t := by
  obtain ⟨row, hrow, hx⟩ := Option.bind_eq_some_iff.mp hcode
  have hmem : tileOfCode? code ∈ rows.flatten.map tileOfCode? := List.mem_map_of_mem
    (List.mem_flatten.mpr ⟨row, List.mem_of_getElem? hrow, List.mem_of_getElem? hx⟩)
  rw [h.tiles, List.mem_map] at hmem
  obtain ⟨t, -, ht⟩ := hmem
  exact ⟨t, ht.symm⟩

/-- **Each code has its tile at its place.** -/
theorem tile_codeCell (h : Laid rows g)
    (small : columns rows * rows.length ≤ 2147483647) {x y : Nat} {code : UInt8}
    (hcode : codeAt? rows x y = some code) : g.tile (codeCell x y) = .ok (tileOfCode? code) := by
  obtain ⟨hx, hy⟩ := lt_of_codeAt? h.full hcode
  obtain ⟨hin, hindex⟩ := h.inBounds_codeCell small hx hy
  have hflat : rows.flatten[y * columns rows + x]? = some code :=
    (getElem?_flatten_of_full h.full hx).trans hcode
  have htile := congrArg (·[y * columns rows + x]?) h.tiles
  simp only [List.getElem?_map, hflat, Option.map_some, Array.getElem?_toList] at htile
  rw [(h.tiled small).tile_of_inBounds hin, hindex]
  cases hget : g.tiles[y * columns rows + x]? with
  | none => rw [hget] at htile; cases htile
  | some t =>
    rw [hget] at htile
    exact congrArg _ (Option.some.inj htile).symm

/-- The start is the cell of the one start code. -/
theorem exists_start (h : Laid rows g) :
    ∃ x y, codeAt? rows x y = some 2 ∧ g.start = codeCell x y :=
  mem_startCells.mp (by rw [h.starts]; exact List.mem_singleton_self _)

/-- **The grid of an accepted level is well formed.** -/
theorem wellFormed (h : Laid rows g) (small : columns rows * rows.length ≤ 2147483647) :
    g.WellFormed := by
  obtain ⟨x, y, hcode, hstart⟩ := h.exists_start
  obtain ⟨hx, hy⟩ := lt_of_codeAt? h.full hcode
  obtain ⟨hbx, hby⟩ := inBounds_iff.mp (h.inBounds_codeCell small hx hy).1
  exact
    { width_nonneg := by rw [h.toInt_width]; omega
      height_nonneg := by rw [h.toInt_height]; omega
      area_lt := (h.tiled small).area_lt
      size_eq := (h.tiled small).size_eq
      start_x := by rw [hstart]; exact hbx
      start_y := by rw [hstart]; exact hby }

/-- Every tile of an accepted level is the tile of a code. -/
theorem exists_code (h : Laid rows g) {c : Cell} {t : Tile} (ht : g.tile c = .ok (some t)) :
    ∃ code, tileOfCode? code = some t := by
  have hmem : some t ∈ g.tiles.toList.map some :=
    List.mem_map_of_mem (Array.mem_toList_iff.mpr (mem_tiles_of_tile ht))
  rw [← h.tiles, List.mem_map] at hmem
  obtain ⟨code, -, hcode⟩ := hmem
  exact ⟨code, hcode⟩

/-- An accepted level has no gates. -/
theorem tile_ne_gate (h : Laid rows g) (c : Cell) : g.tile c ≠ .ok (some .gate) := by
  intro hgate
  obtain ⟨code, hcode⟩ := h.exists_code hgate
  rw [tileOfCode?] at hcode
  split at hcode
  · cases hcode
  · split at hcode
    · cases hcode
    · split at hcode
      · cases hcode
      · split at hcode <;> cases hcode

/-- The start is on a path. -/
theorem tile_start (h : Laid rows g) (small : columns rows * rows.length ≤ 2147483647) :
    g.tile g.start = .ok (some .path) := by
  obtain ⟨x, y, hcode, hstart⟩ := h.exists_start
  rw [hstart, h.tile_codeCell small hcode]
  rfl

end Laid

/-! ## Every level that is read -/

/-- A level that is read has a tile for each code, however large it is. -/
theorem size_of_ofCodes {rows : List (List UInt8)} {g : Grid} (h : ofCodes rows = .ok g) :
    g.tiles.size = rows.length * columns rows := by
  obtain ⟨-, tiles, start, htiles, -, rfl, -⟩ := exists_of_ofCodes h
  obtain ⟨hfull, hmap⟩ := map_of_rowsTiles htiles
  have hlength := congrArg List.length hmap
  rw [List.length_map, List.length_map, length_flatten_of_full hfull] at hlength
  rw [layOut, List.size_toArray]
  exact hlength.symm

/-- **Every level that is read is well formed**, as long as its tiles can be counted. -/
theorem wellFormed_of_ofCodes {rows : List (List UInt8)} {g : Grid} (h : ofCodes rows = .ok g)
    (small : g.tiles.size ≤ 2147483647) : g.WellFormed := by
  rw [size_of_ofCodes h, Nat.mul_comm] at small
  exact (accepted_of_ofCodes h small).wellFormed small

end BlockCoding.Grid
