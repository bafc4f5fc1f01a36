import BlockCoding.Proofs.Grid.Codes
import BlockCoding.Proofs.Grid.Reachability
import Mathlib.Data.Option.Basic
import Mathlib.Logic.Relation

/-!
# Proofs/Grid/Reading — what a matrix of codes is read as

`Reads` tells what the reading of a matrix of codes gives, in terms of the matrix alone: which of
its faults is reported, and the grid that it draws if it has none.  `ofCodes_eq_iff`: the reading
gives this and nothing else.  Sound rows are read and the first fault behind them is the one that is
reported (`rowsTiles_append`), each start is counted once (`length_startCells`), and a goal is
reached on the grid exactly if a chain of adjacent places leads to it in the matrix
(`Laid.goalReachable_iff`).
-/

namespace BlockCoding

/-- A cell lies in column `x` of row `y`. -/
def Cell.At (c : Cell) (x y : Nat) : Prop := c.x.toInt = x ∧ c.y.toInt = y

namespace Grid

/-! ## What is to be read -/

/-- The tiles of the codes 0 to 4; the start is a path. -/
def legend : List Tile := [.path, .wall, .path, .goal, .collectible]

/-- There are no rows, or the first one is empty. -/
def Blank (rows : List (List UInt8)) : Prop := rows = [] ∨ rows.head? = some []

/-- **A row without fault** has as many codes as the first one, all of them known. -/
structure SoundRow (width : Nat) (row : List UInt8) : Prop where
  length_eq : row.length = width
  known : ∀ code ∈ row, code ≤ 4

/-- Two places that share a side. -/
def Adjacent (p q : Nat × Nat) : Prop :=
  p.1 = q.1 ∧ (p.2 + 1 = q.2 ∨ q.2 + 1 = p.2) ∨ p.2 = q.2 ∧ (p.1 + 1 = q.1 ∨ q.1 + 1 = p.1)

/-- A step to an adjacent place of the matrix that is no wall. -/
def StepsTo (rows : List (List UInt8)) (p q : Nat × Nat) : Prop :=
  Adjacent p q ∧ ∃ code, codeAt? rows q.1 q.2 = some code ∧ code ≠ 1

/-- **A chain of such steps leads from a start to a goal.** -/
def Connected (rows : List (List UInt8)) : Prop :=
  ∃ start goal : Nat × Nat, codeAt? rows start.1 start.2 = some 2 ∧
    codeAt? rows goal.1 goal.2 = some 3 ∧ Relation.ReflTransGen (StepsTo rows) start goal

/-- **The grid that a matrix draws**: its dimensions, a tile for each code at its place, its start,
and a heading to the right. -/
structure Draws (rows : List (List UInt8)) (g : Grid) : Prop where
  width_eq : g.width.toInt = columns rows
  height_eq : g.height.toInt = rows.length
  size_eq : g.tiles.size = columns rows * rows.length
  tile : ∀ (x y : Nat) (code : UInt8), codeAt? rows x y = some code →
    ∃ t, legend[code.toNat]? = some t ∧ ∀ c : Cell, c.At x y → g.tile c = .ok (some t)
  start : ∃ x y : Nat, codeAt? rows x y = some 2 ∧ g.start.At x y
  startHeading : g.startHeading = .right

/-- **What the reading of a matrix gives.**  Each answer presupposes that none of those before it
applies; of the rows it is the topmost faulty one that is reported, by its length before its codes,
and of these by the leftmost unknown one. -/
inductive Reads (rows : List (List UInt8)) : Except LevelError Grid → Prop where
  | empty (blank : Blank rows) : Reads rows (.error .empty)
  | ragged {above below : List (List UInt8)} {row : List UInt8} (filled : ¬ Blank rows)
      (split : rows = above ++ row :: below) (sound : ∀ r ∈ above, SoundRow (columns rows) r)
      (uneven : row.length ≠ columns rows) :
      Reads rows (.error (.ragged above.length row.length (columns rows)))
  | unknownCode {above below : List (List UInt8)} {before after : List UInt8} {code : UInt8}
      {cell : Cell} (filled : ¬ Blank rows)
      (split : rows = above ++ (before ++ code :: after) :: below)
      (sound : ∀ r ∈ above, SoundRow (columns rows) r)
      (full : (before ++ code :: after).length = columns rows) (known : ∀ c ∈ before, c ≤ 4)
      (unknown : 4 < code) (place : cell.At before.length above.length) :
      Reads rows (.error (.unknownCode code cell))
  | startCount (filled : ¬ Blank rows) (sound : ∀ row ∈ rows, SoundRow (columns rows) row)
      (several : rows.flatten.count 2 ≠ 1) :
      Reads rows (.error (.startCount (rows.flatten.count 2)))
  | unreachable (filled : ¬ Blank rows) (sound : ∀ row ∈ rows, SoundRow (columns rows) row)
      (single : rows.flatten.count 2 = 1) (cut : ¬ Connected rows) :
      Reads rows (.error .unreachable)
  | grid {g : Grid} (filled : ¬ Blank rows) (sound : ∀ row ∈ rows, SoundRow (columns rows) row)
      (single : rows.flatten.count 2 = 1) (connected : Connected rows) (drawn : Draws rows g) :
      Reads rows (.ok g)

/-! ## Codes, rows and starts -/

theorem eq_of_known {code : UInt8} (h : code ≤ 4) :
    code = 0 ∨ code = 1 ∨ code = 2 ∨ code = 3 ∨ code = 4 := by
  simp only [UInt8.le_iff_toNat_le, ← UInt8.toNat_inj] at h ⊢
  simp only [UInt8.reduceToNat] at h ⊢
  omega

theorem tileOfCode?_of_unknown {code : UInt8} (h : 4 < code) : tileOfCode? code = none := by
  have hne (k : UInt8) (hk : k ≤ 4) : code ≠ k := fun hcode => UInt8.not_lt.mpr hk (hcode ▸ h)
  simp [tileOfCode?, hne]

theorem exists_tileOfCode? {code : UInt8} (h : code ≤ 4) : ∃ t, tileOfCode? code = some t := by
  rcases eq_of_known h with rfl | rfl | rfl | rfl | rfl <;> exact ⟨_, rfl⟩

/-- The known codes have the tiles that the legend shows. -/
theorem tileOfCode?_eq_some {code : UInt8} {t : Tile} :
    tileOfCode? code = some t ↔ legend[code.toNat]? = some t := by
  by_cases hknown : code ≤ 4
  · rcases eq_of_known hknown with rfl | rfl | rfl | rfl | rfl <;> exact Iff.rfl
  · rw [tileOfCode?_of_unknown (UInt8.not_le.mp hknown), List.getElem?_eq_none]
    exact UInt8.lt_iff_toNat_lt.mp (UInt8.not_le.mp hknown)

/-- What is wrong with the codes behind known ones is what is wrong with all of them. -/
theorem rowTiles_append {y x : Nat} {before rest : List UInt8} {e : LevelError}
    (known : ∀ code ∈ before, code ≤ 4) (h : rowTiles y (x + before.length) rest = .error e) :
    rowTiles y x (before ++ rest) = .error e := by
  induction before generalizing x with
  | nil => exact h
  | cons code before ih =>
    obtain ⟨t, ht⟩ := exists_tileOfCode? (known code List.mem_cons_self)
    rw [List.length_cons, Nat.add_comm before.length, ← Nat.add_assoc] at h
    rw [List.cons_append, rowTiles, ht]
    dsimp only
    rw [ih (fun c hc => known c (List.mem_cons_of_mem _ hc)) h]
    rfl

/-- The leftmost unknown code of a row is reported. -/
theorem rowTiles_of_unknown {y x : Nat} {before after : List UInt8} {code : UInt8}
    (known : ∀ c ∈ before, c ≤ 4) (unknown : 4 < code) :
    rowTiles y x (before ++ code :: after)
      = .error (.unknownCode code (codeCell (x + before.length) y)) := by
  refine rowTiles_append known ?_
  rw [rowTiles, tileOfCode?_of_unknown unknown]
  rfl

/-- Known codes are read. -/
theorem exists_rowTiles {y x : Nat} {codes : List UInt8} (known : ∀ code ∈ codes, code ≤ 4) :
    ∃ tiles, rowTiles y x codes = .ok tiles := by
  induction codes generalizing x with
  | nil => exact ⟨[], rfl⟩
  | cons code codes ih =>
    obtain ⟨t, ht⟩ := exists_tileOfCode? (known code List.mem_cons_self)
    obtain ⟨tiles, htiles⟩ := ih (x := x + 1) fun c hc => known c (List.mem_cons_of_mem _ hc)
    refine ⟨t :: tiles, ?_⟩
    rw [rowTiles, ht]
    dsimp only
    rw [htiles]
    rfl

/-- What is wrong with the rows below sound ones is what is wrong with all of them. -/
theorem rowsTiles_append {width y : Nat} {above rest : List (List UInt8)} {e : LevelError}
    (sound : ∀ row ∈ above, SoundRow width row)
    (h : rowsTiles width (y + above.length) rest = .error e) :
    rowsTiles width y (above ++ rest) = .error e := by
  induction above generalizing y with
  | nil => exact h
  | cons row above ih =>
    have hrow := sound row List.mem_cons_self
    obtain ⟨tiles, htiles⟩ := exists_rowTiles (y := y) (x := 0) hrow.known
    rw [List.length_cons, Nat.add_comm above.length, ← Nat.add_assoc] at h
    rw [List.cons_append, rowsTiles, if_neg (not_not.mpr hrow.length_eq), htiles, ok_bind,
      ih (fun r hr => sound r (List.mem_cons_of_mem _ hr)) h]
    rfl

/-- Sound rows are read. -/
theorem exists_rowsTiles {width y : Nat} {rows : List (List UInt8)}
    (sound : ∀ row ∈ rows, SoundRow width row) : ∃ tiles, rowsTiles width y rows = .ok tiles := by
  induction rows generalizing y with
  | nil => exact ⟨[], rfl⟩
  | cons row rows ih =>
    have hrow := sound row List.mem_cons_self
    obtain ⟨here, hhere⟩ := exists_rowTiles (y := y) (x := 0) hrow.known
    obtain ⟨there, hthere⟩ := ih (y := y + 1) fun r hr => sound r (List.mem_cons_of_mem _ hr)
    refine ⟨here ++ there, ?_⟩
    rw [rowsTiles, if_neg (not_not.mpr hrow.length_eq), hhere, ok_bind, hthere]
    rfl

/-- **Each start code has a cell of its own.** -/
theorem length_startCells (rows : List (List UInt8)) :
    (startCells rows).length = rows.flatten.count 2 := by
  -- Each row counts its own starts; the columns may be numbered from anywhere.
  have hrow (row : List UInt8) (y k : Nat) : ((row.zipIdx k).filterMap fun p =>
      if p.1 = 2 then some (codeCell p.2 y) else none).length = row.count 2 := by
    induction row generalizing k with
    | nil => rfl
    | cons code row ih =>
      rw [List.zipIdx_cons, List.filterMap_cons, List.count_cons, ← ih (k + 1)]
      by_cases htwo : code = 2 <;> simp [htwo]
  have hrows : rows.zipIdx.map (fun p => p.1.count 2) = rows.map (List.count 2) := by
    conv_rhs => rw [← rows.zipIdx_map_fst 0, List.map_map]
    rfl
  rw [startCells, List.length_flatMap, List.count_flatten, ← hrows]
  exact congrArg _ (List.map_congr_left fun p _ => hrow p.1 p.2 0)

/-! ## Places and their cells -/

section Places

variable {rows : List (List UInt8)} {x y : Nat}

theorem columns_pos_iff : 0 < columns rows ↔ ¬ Blank rows := by
  match rows with
  | [] | [] :: _ | (_ :: _) :: _ => simp [columns, Blank]

theorem exists_codeAt? (full : ∀ row ∈ rows, row.length = columns rows) (hx : x < columns rows)
    (hy : y < rows.length) : ∃ code, codeAt? rows x y = some code := by
  have hlen : x < rows[y].length := by rwa [full _ (List.getElem_mem hy)]
  refine ⟨rows[y][x], ?_⟩
  rw [codeAt?, List.getElem?_eq_getElem hy]
  exact List.getElem?_eq_getElem hlen

/-- What is in front of a code in a full row, and above it, says where the code stands. -/
theorem lt_of_split {above below : List (List UInt8)} {before after : List UInt8} {code : UInt8}
    (split : rows = above ++ (before ++ code :: after) :: below)
    (full : (before ++ code :: after).length = columns rows) :
    before.length < columns rows ∧ above.length < rows.length := by
  constructor
  · rw [← full, List.length_append, List.length_cons]
    omega
  · rw [split, List.length_append, List.length_cons]
    omega

/-- The places of a matrix whose codes can be counted are those of their cells. -/
theorem at_iff (small : columns rows * rows.length ≤ 2147483647) (hx : x < columns rows)
    (hy : y < rows.length) {c : Cell} : c.At x y ↔ c = codeCell x y := by
  have hcolumns := Nat.le_mul_of_pos_right (columns rows) (Nat.zero_lt_of_lt hy)
  have hrows := Nat.le_mul_of_pos_left rows.length (Nat.zero_lt_of_lt hx)
  obtain ⟨hcx, hcy⟩ := toInt_codeCell (x := x) (y := y) (by omega) (by omega)
  constructor
  · rintro ⟨hx', hy'⟩
    cases c
    exact congrArg₂ Cell.mk (Int32.toInt_inj.mp (hx'.trans hcx.symm))
      (Int32.toInt_inj.mp (hy'.trans hcy.symm))
  · rintro rfl
    exact ⟨hcx, hcy⟩

end Places

/-! ## What is drawn is what is laid out -/

namespace Laid

variable {rows : List (List UInt8)} {g g' : Grid}

theorem draws (h : Laid rows g) (small : columns rows * rows.length ≤ 2147483647) :
    Draws rows g where
  width_eq := h.toInt_width
  height_eq := h.toInt_height
  size_eq := by rw [h.size_eq, Nat.mul_comm]
  tile x y code hcode := by
    obtain ⟨hx, hy⟩ := lt_of_codeAt? h.full hcode
    obtain ⟨t, ht⟩ := h.exists_tile hcode
    refine ⟨t, tileOfCode?_eq_some.mp ht, fun c hc => ?_⟩
    rw [(at_iff small hx hy).mp hc, h.tile_codeCell small hcode, ht]
  start := by
    obtain ⟨x, y, hcode, hstart⟩ := h.exists_start
    obtain ⟨hx, hy⟩ := lt_of_codeAt? h.full hcode
    exact ⟨x, y, hcode, (at_iff small hx hy).mpr hstart⟩
  startHeading := h.startHeading

/-- A matrix is laid out in one way only. -/
theorem unique (h : Laid rows g) (h' : Laid rows g') : g' = g := by
  have hwidth := Int32.toInt_inj.mp (h'.toInt_width.trans h.toInt_width.symm)
  have hheight := Int32.toInt_inj.mp (h'.toInt_height.trans h.toInt_height.symm)
  have htiles : g'.tiles = g.tiles := Array.toList_inj.mp
    (List.map_injective_iff.mpr (Option.some_injective _) (h'.tiles.symm.trans h.tiles))
  have hstart : g'.start = g.start := List.singleton_inj.mp (h'.starts.symm.trans h.starts)
  have hheading := h'.startHeading.trans h.startHeading.symm
  cases g
  cases g'
  congr

end Laid

namespace Draws

variable {rows : List (List UInt8)} {g : Grid}

theorem tiled (h : Draws rows g) (small : columns rows * rows.length ≤ 2147483647) : g.Tiled where
  area_lt := by
    rw [h.width_eq, h.height_eq, ← Int.natCast_mul]
    omega
  size_eq := by rw [h.width_eq, h.height_eq, ← Int.natCast_mul, h.size_eq]

/-- The tiles of full rows stand one row behind the other. -/
theorem map_tiles (h : Draws rows g) (full : ∀ row ∈ rows, row.length = columns rows)
    (hpos : 0 < columns rows) (small : columns rows * rows.length ≤ 2147483647) :
    rows.flatten.map tileOfCode? = g.tiles.toList.map some := by
  refine List.ext_getElem? fun i => ?_
  have hget : g.tiles.toList[i]? = g.tiles[i]? := Array.getElem?_toList
  rw [List.getElem?_map, List.getElem?_map, hget]
  rcases Nat.lt_or_ge i (columns rows * rows.length) with hi | hi
  · -- The tile stored at `i` is the one in column `i % columns rows` of row `i / columns rows`.
    have hx : i % columns rows < columns rows := Nat.mod_lt i hpos
    have hy : i / columns rows < rows.length := Nat.div_lt_of_lt_mul hi
    have hplace : i / columns rows * columns rows + i % columns rows = i := Nat.div_add_mod' i _
    obtain ⟨code, hcode⟩ := exists_codeAt? full hx hy
    have hflat : rows.flatten[i]? = some code := by
      rw [← hplace, getElem?_flatten_of_full full hx]
      exact hcode
    obtain ⟨t, hlegend, htile⟩ := h.tile _ _ code hcode
    obtain ⟨hin, hindex⟩ := (h.tiled small).indexOf_codeCell
      (h.width_eq ▸ Int.ofNat_lt.mpr hx) (h.height_eq ▸ Int.ofNat_lt.mpr hy)
    have hstored := htile _ ((at_iff small hx hy).mpr rfl)
    rw [(h.tiled small).tile_of_inBounds hin, hindex, h.width_eq, Int.toNat_natCast, hplace]
      at hstored
    rw [hflat, Except.ok.inj hstored, Option.map_some, tileOfCode?_eq_some.mpr hlegend,
      Option.map_some]
  · rw [List.getElem?_eq_none (by rwa [length_flatten_of_full full, Nat.mul_comm]),
      Array.getElem?_eq_none (by rwa [h.size_eq])]
    rfl

theorem startCells_eq (h : Draws rows g) (full : ∀ row ∈ rows, row.length = columns rows)
    (single : rows.flatten.count 2 = 1) (small : columns rows * rows.length ≤ 2147483647) :
    startCells rows = [g.start] := by
  obtain ⟨start, hstart⟩ := List.length_eq_one_iff.mp ((length_startCells rows).trans single)
  obtain ⟨x, y, hcode, hat⟩ := h.start
  obtain ⟨hx, hy⟩ := lt_of_codeAt? full hcode
  have hmem : g.start ∈ startCells rows :=
    mem_startCells.mpr ⟨x, y, hcode, (at_iff small hx hy).mp hat⟩
  rw [hstart, List.mem_singleton] at hmem
  rw [hstart, hmem]

/-- **The grid that a sound matrix with one start draws** is the one that is laid out. -/
theorem laid (h : Draws rows g) (filled : ¬ Blank rows)
    (sound : ∀ row ∈ rows, SoundRow (columns rows) row) (single : rows.flatten.count 2 = 1)
    (small : columns rows * rows.length ≤ 2147483647) : Laid rows g :=
  have full : ∀ row ∈ rows, row.length = columns rows := fun row hrow => (sound row hrow).length_eq
  { full
    columns_pos := columns_pos_iff.mpr filled
    rows_pos := List.length_pos_iff.mpr fun hrows => filled (.inl hrows)
    toInt_width := h.width_eq
    toInt_height := h.height_eq
    tiles := h.map_tiles full (columns_pos_iff.mpr filled) small
    starts := h.startCells_eq full single small
    startHeading := h.startHeading }

end Draws

/-! ## Chains of places and chains of cells -/

namespace Laid

variable {rows : List (List UInt8)} {g : Grid}

/-- Only known codes are laid out. -/
theorem known (h : Laid rows g) {x y : Nat} {code : UInt8}
    (hcode : codeAt? rows x y = some code) : code ≤ 4 := by
  obtain ⟨t, ht⟩ := h.exists_tile hcode
  by_contra hunknown
  rw [tileOfCode?_of_unknown (UInt8.not_le.mp hunknown)] at ht
  cases ht

/-- Every code but that of a wall can be entered. -/
theorem isPassable_codeCell (h : Laid rows g) (small : columns rows * rows.length ≤ 2147483647)
    {x y : Nat} {code : UInt8} (hcode : codeAt? rows x y = some code) :
    g.isPassable (codeCell x y) true = .ok true ↔ code ≠ 1 := by
  rw [isPassable, h.tile_codeCell small hcode, ok_bind]
  rcases eq_of_known (h.known hcode) with rfl | rfl | rfl | rfl | rfl <;> decide

theorem goal_codeCell (h : Laid rows g) (small : columns rows * rows.length ≤ 2147483647)
    {x y : Nat} {code : UInt8} (hcode : codeAt? rows x y = some code) :
    g.tile (codeCell x y) = .ok (some .goal) ↔ code = 3 := by
  rw [h.tile_codeCell small hcode]
  rcases eq_of_known (h.known hcode) with rfl | rfl | rfl | rfl | rfl <;> decide

/-- The cells inside the bounds are those of the places of the matrix. -/
theorem exists_place (h : Laid rows g) (small : columns rows * rows.length ≤ 2147483647) {c : Cell}
    (hc : g.inBounds c = true) :
    ∃ (p : Nat × Nat) (code : UInt8), c = codeCell p.1 p.2 ∧ codeAt? rows p.1 p.2 = some code := by
  obtain ⟨⟨hx₀, hx⟩, hy₀, hy⟩ := inBounds_iff.mp hc
  rw [h.toInt_width] at hx
  rw [h.toInt_height] at hy
  obtain ⟨x, hcx⟩ := Int.eq_ofNat_of_zero_le hx₀
  obtain ⟨y, hcy⟩ := Int.eq_ofNat_of_zero_le hy₀
  have hxlt : x < columns rows := by omega
  have hylt : y < rows.length := by omega
  obtain ⟨code, hcode⟩ := exists_codeAt? h.full hxlt hylt
  exact ⟨(x, y), code, (at_iff small hxlt hylt).mp ⟨hcx, hcy⟩, hcode⟩

/-- **Adjacent places are those of neighbouring cells.** -/
theorem adjacent_iff (h : Laid rows g) (small : columns rows * rows.length ≤ 2147483647)
    {p q : Nat × Nat} {code code' : UInt8} (hp : codeAt? rows p.1 p.2 = some code)
    (hq : codeAt? rows q.1 q.2 = some code') :
    Adjacent p q ↔ ∃ d, (codeCell p.1 p.2).offset d = codeCell q.1 q.2 := by
  obtain ⟨hpx, hpy⟩ := lt_of_codeAt? h.full hp
  obtain ⟨hqx, hqy⟩ := lt_of_codeAt? h.full hq
  obtain ⟨hx, hy⟩ := (at_iff small hpx hpy).mpr rfl
  have hoffset := toInt_offset (h.inBounds_codeCell small hpx hpy).1
  rw [hx, hy] at hoffset
  -- The neighbours of a cell inside the bounds are there, so a heading fixes both differences.
  have hiff (d : Heading) : (codeCell p.1 p.2).offset d = codeCell q.1 q.2 ↔
      (p.1 : Int) + d.delta.1.toInt = q.1 ∧ (p.2 : Int) + d.delta.2.toInt = q.2 := by
    rw [← at_iff small hqx hqy, Cell.At, (hoffset d).1, (hoffset d).2]
  simp only [hiff, Adjacent]
  constructor
  · rintro (⟨hx, hy | hy⟩ | ⟨hy, hx | hx⟩)
    · exact ⟨.down, by simp [Heading.delta]; omega⟩
    · exact ⟨.up, by simp [Heading.delta]; omega⟩
    · exact ⟨.right, by simp [Heading.delta]; omega⟩
    · exact ⟨.left, by simp [Heading.delta]; omega⟩
  · rintro ⟨d, hx, hy⟩
    cases d <;> simp [Heading.delta] at hx hy <;> omega

/-- What is reached from the cell of a place is the cell of a place to which a chain leads. -/
theorem exists_chain (h : Laid rows g) (small : columns rows * rows.length ≤ 2147483647)
    {p : Nat × Nat} {code : UInt8} (hp : codeAt? rows p.1 p.2 = some code) {c : Cell}
    (hreach : g.Reaches (codeCell p.1 p.2) c) :
    ∃ (q : Nat × Nat) (code' : UInt8), c = codeCell q.1 q.2 ∧ codeAt? rows q.1 q.2 = some code' ∧
      Relation.ReflTransGen (StepsTo rows) p q := by
  induction hreach with
  | refl => exact ⟨p, code, rfl, hp, .refl⟩
  | step d reached enterable ih =>
    obtain ⟨q, _, rfl, hq, hchain⟩ := ih
    obtain ⟨next, code', hnext, hcode'⟩ := h.exists_place small (inBounds_of_isPassable enterable)
    rw [hnext, h.isPassable_codeCell small hcode'] at enterable
    exact ⟨next, code', hnext, hcode', hchain.tail
      ⟨(h.adjacent_iff small hq hcode').mpr ⟨d, hnext⟩, code', hcode', enterable⟩⟩

/-- Where a chain of places leads, the cell is reached. -/
theorem reaches_of_chain (h : Laid rows g) (small : columns rows * rows.length ≤ 2147483647)
    {p q : Nat × Nat} {code : UInt8} (hp : codeAt? rows p.1 p.2 = some code)
    (hchain : Relation.ReflTransGen (StepsTo rows) p q) :
    (∃ code', codeAt? rows q.1 q.2 = some code') ∧
      g.Reaches (codeCell p.1 p.2) (codeCell q.1 q.2) := by
  induction hchain with
  | refl => exact ⟨⟨code, hp⟩, .refl⟩
  | tail _ hstep ih =>
    obtain ⟨⟨_, hfrom⟩, hreach⟩ := ih
    obtain ⟨hadjacent, code', hcode', hopen⟩ := hstep
    obtain ⟨d, hd⟩ := (h.adjacent_iff small hfrom hcode').mp hadjacent
    refine ⟨⟨code', hcode'⟩, ?_⟩
    rw [← hd]
    refine .step d hreach ?_
    rw [hd, h.isPassable_codeCell small hcode']
    exact hopen

/-- **A goal is found on the grid exactly if the matrix is connected.** -/
theorem goalReachable_iff (h : Laid rows g) (small : columns rows * rows.length ≤ 2147483647) :
    g.goalReachable = .ok true ↔ Connected rows := by
  rw [(h.wellFormed small).goalReachable_iff]
  constructor
  · rintro ⟨c, hreach, hgoal⟩
    obtain ⟨x, y, hstart, hcell⟩ := h.exists_start
    rw [hcell] at hreach
    obtain ⟨q, code, rfl, hq, hchain⟩ := h.exists_chain small (p := (x, y)) hstart hreach
    rw [h.goal_codeCell small hq] at hgoal
    exact ⟨(x, y), q, hstart, hgoal ▸ hq, hchain⟩
  · rintro ⟨start, goal, hstart, hgoal, hchain⟩
    have hmem : codeCell start.1 start.2 ∈ startCells rows :=
      mem_startCells.mpr ⟨_, _, hstart, rfl⟩
    rw [h.starts, List.mem_singleton] at hmem
    rw [← hmem]
    exact ⟨_, (h.reaches_of_chain small hstart hchain).2, (h.goal_codeCell small hgoal).mpr rfl⟩

end Laid

/-! ## Every answer is given -/

section Reading

variable {rows : List (List UInt8)}

theorem ofCodes_of_blank (blank : Blank rows) : ofCodes rows = .error .empty := by
  match rows with
  | [] | [] :: _ => rfl
  | (_ :: _) :: _ => rcases blank with h | h <;> cases h

/-- A fault of the rows is a fault of the level. -/
theorem ofCodes_of_rowsTiles {e : LevelError} (filled : ¬ Blank rows)
    (h : rowsTiles (columns rows) 0 rows = .error e) : ofCodes rows = .error e := by
  rw [ofCodes_eq (columns_pos_iff.mpr filled), h]
  rfl

/-- Sound rows are followed by the number of starts. -/
theorem ofCodes_of_starts (filled : ¬ Blank rows)
    (sound : ∀ row ∈ rows, SoundRow (columns rows) row) (several : rows.flatten.count 2 ≠ 1) :
    ofCodes rows = .error (.startCount (rows.flatten.count 2)) := by
  obtain ⟨tiles, htiles⟩ := exists_rowsTiles (y := 0) sound
  rw [ofCodes_eq (columns_pos_iff.mpr filled), htiles, ok_bind]
  rw [← length_startCells] at several ⊢
  split
  · next start hstarts => rw [hstarts] at several; exact absurd rfl several
  · rfl

/-- Sound rows with one start are laid out, and the search decides. -/
theorem exists_laid (filled : ¬ Blank rows) (sound : ∀ row ∈ rows, SoundRow (columns rows) row)
    (single : rows.flatten.count 2 = 1) (small : columns rows * rows.length ≤ 2147483647) :
    ∃ g, Laid rows g ∧ (Connected rows → ofCodes rows = .ok g) ∧
      (¬ Connected rows → ofCodes rows = .error .unreachable) := by
  have hpos := columns_pos_iff.mpr filled
  obtain ⟨tiles, htiles⟩ := exists_rowsTiles (y := 0) sound
  obtain ⟨start, hstart⟩ := List.length_eq_one_iff.mp ((length_startCells rows).trans single)
  have hlaid := laid_layOut hpos htiles hstart small
  have hiff := hlaid.goalReachable_iff small
  refine ⟨layOut rows tiles start, hlaid, fun hconnected => ?_, fun hcut => ?_⟩
  · rw [ofCodes_eq hpos, htiles, ok_bind, hstart]
    dsimp only
    rw [hiff.mpr hconnected]
  · rw [ofCodes_eq hpos, htiles, ok_bind, hstart]
    dsimp only
    split
    · next hreach => exact absurd (hiff.mp hreach) hcut
    · rfl

/-- The answer to a matrix is the answer it gets. -/
theorem Reads.ofCodes_eq {r : Except LevelError Grid} (h : Reads rows r)
    (small : columns rows * rows.length ≤ 2147483647) : ofCodes rows = r := by
  cases h with
  | empty blank => exact ofCodes_of_blank blank
  | @ragged above below row filled split sound uneven =>
    have hrow : rowsTiles (columns rows) (0 + above.length) (row :: below)
        = .error (.ragged above.length row.length (columns rows)) := by
      rw [rowsTiles, if_pos uneven, Nat.zero_add]
      rfl
    have hrows := rowsTiles_append sound hrow
    rw [← split] at hrows
    exact ofCodes_of_rowsTiles filled hrows
  | @unknownCode above below before after code cell filled split sound full known unknown place =>
    obtain ⟨hx, hy⟩ := lt_of_split split full
    obtain rfl := (at_iff small hx hy).mp place
    have hrow : rowsTiles (columns rows) (0 + above.length) ((before ++ code :: after) :: below)
        = .error (.unknownCode code (codeCell before.length above.length)) := by
      rw [rowsTiles, if_neg (not_not.mpr full), rowTiles_of_unknown known unknown, Nat.zero_add,
        Nat.zero_add]
      rfl
    have hrows := rowsTiles_append sound hrow
    rw [← split] at hrows
    exact ofCodes_of_rowsTiles filled hrows
  | startCount filled sound several => exact ofCodes_of_starts filled sound several
  | unreachable filled sound single cut =>
    obtain ⟨_, -, -, hcut⟩ := exists_laid filled sound single small
    exact hcut cut
  | grid filled sound single connected drawn =>
    obtain ⟨g, hlaid, hconnected, -⟩ := exists_laid filled sound single small
    rw [hconnected connected, hlaid.unique (drawn.laid filled sound single small)]

/-- Where not everything is as it should be, there is a first thing that is not. -/
theorem exists_first {α : Type} {p : α → Prop} {l : List α} (h : ¬ ∀ a ∈ l, p a) :
    ∃ before a after, l = before ++ a :: after ∧ (∀ b ∈ before, p b) ∧ ¬ p a := by
  classical
  cases hfind : l.find? fun a => !decide (p a) with
  | none => exact absurd (by simpa using hfind) h
  | some a =>
    obtain ⟨ha, before, after, rfl, hbefore⟩ := List.find?_eq_some_iff_append.mp hfind
    exact ⟨before, a, after, rfl, by simpa using hbefore, by simpa using ha⟩

/-- Every matrix has an answer. -/
theorem exists_reads (small : columns rows * rows.length ≤ 2147483647) : ∃ r, Reads rows r := by
  by_cases blank : Blank rows
  · exact ⟨_, .empty blank⟩
  by_cases sound : ∀ row ∈ rows, SoundRow (columns rows) row
  · by_cases single : rows.flatten.count 2 = 1
    · by_cases connected : Connected rows
      · obtain ⟨g, hlaid, -⟩ := exists_laid blank sound single small
        exact ⟨.ok g, .grid blank sound single connected (hlaid.draws small)⟩
      · exact ⟨_, .unreachable blank sound single connected⟩
    · exact ⟨_, .startCount blank sound single⟩
  · obtain ⟨above, row, below, split, habove, hrow⟩ := exists_first sound
    by_cases full : row.length = columns rows
    · obtain ⟨before, code, after, rfl, known, hcode⟩ :=
        exists_first (p := (· ≤ 4)) fun known => hrow ⟨full, known⟩
      obtain ⟨hx, hy⟩ := lt_of_split split full
      exact ⟨_, .unknownCode blank split habove full known (UInt8.not_le.mp hcode)
        ((at_iff small hx hy).mpr rfl)⟩
    · exact ⟨_, .ragged blank split habove full⟩

/-- **A matrix of codes is read as `Reads` says, and as nothing else**, as long as its codes can be
counted. -/
theorem ofCodes_eq_iff (rows : List (List UInt8)) (r : Except LevelError Grid)
    (small : columns rows * rows.length ≤ 2147483647) : ofCodes rows = r ↔ Reads rows r := by
  constructor
  · rintro rfl
    obtain ⟨r, hr⟩ := exists_reads small
    rwa [hr.ofCodes_eq small]
  · intro h
    exact h.ofCodes_eq small

/-- An unknown code is reported before the short row below it, and a corridor is drawn. -/
theorem ofCodes_eq_iff_first :
    Reads [[2, 9, 3], [1]] (.error (.unknownCode 9 ⟨1, 0⟩)) ∧
      Reads [[2, 4, 3]] (.ok ⟨3, 1, #[.path, .collectible, .goal], ⟨0, 0⟩, .right⟩) :=
  ⟨(ofCodes_eq_iff [[2, 9, 3], [1]] _ (by decide)).mp (by decide),
    (ofCodes_eq_iff [[2, 4, 3]] _ (by decide)).mp (by decide)⟩

end Reading

end Grid

end BlockCoding
