import BlockCoding.Proofs.Grid.Reachability

/-!
# Proofs/Grid/Route — what is reached is reached without detours

A `Route` spells a chain of steps out as the headings taken.  Cutting every loop out of it leaves a
route that visits no cell twice (`Route.exists_simple`), and such a route is shorter than there are
tiles (`Route.length_lt`).
-/

namespace BlockCoding.Grid

/-- The headings that lead from one cell to another, every cell on the way being one that can be
entered. -/
inductive Route (g : Grid) : Cell → List Heading → Cell → Prop where
  | nil {c : Cell} : Route g c [] c
  | cons {c d : Cell} {h : Heading} {hs : List Heading}
      (enterable : g.isPassable (c.offset h) true = .ok true) (rest : Route g (c.offset h) hs d) :
      Route g c (h :: hs) d

/-- The cells entered along headings. -/
def cellsAlong : Cell → List Heading → List Cell
  | _, [] => []
  | c, h :: hs => c.offset h :: cellsAlong (c.offset h) hs

@[simp] theorem length_cellsAlong (c : Cell) (hs : List Heading) :
    (cellsAlong c hs).length = hs.length := by
  induction hs generalizing c with
  | nil => rfl
  | cons h hs ih => rw [cellsAlong, List.length_cons, List.length_cons, ih]

namespace Route

variable {g : Grid} {c d : Cell} {hs : List Heading}

/-- A route can be continued at its end. -/
theorem snoc (r : Route g c hs d) {h : Heading}
    (enterable : g.isPassable (d.offset h) true = .ok true) :
    Route g c (hs ++ [h]) (d.offset h) := by
  induction r with
  | nil => exact .cons enterable .nil
  | cons pass _ ih => exact .cons pass (ih enterable)

theorem of_reaches (h : g.Reaches c d) : ∃ hs, Route g c hs d := by
  induction h with
  | refl => exact ⟨[], .nil⟩
  | step heading _ enterable ih =>
    obtain ⟨hs, r⟩ := ih
    exact ⟨hs ++ [heading], r.snoc enterable⟩

/-- From any cell of a route that visits none twice, the rest of the route is one too. -/
theorem exists_from (r : Route g c hs d) (hnodup : (c :: cellsAlong c hs).Nodup) {e : Cell}
    (he : e ∈ c :: cellsAlong c hs) :
    ∃ hs', Route g e hs' d ∧ (e :: cellsAlong e hs').Nodup := by
  induction r with
  | nil =>
    obtain rfl := List.mem_singleton.mp he
    exact ⟨[], .nil, hnodup⟩
  | @cons c d h hs pass rest ih =>
    rcases List.mem_cons.mp he with rfl | he
    · exact ⟨h :: hs, .cons pass rest, hnodup⟩
    · exact ih (List.nodup_cons.mp hnodup).2 he

/-- **A route can be cut short until it visits no cell twice.** -/
theorem exists_simple (r : Route g c hs d) :
    ∃ hs', Route g c hs' d ∧ (c :: cellsAlong c hs').Nodup := by
  induction r with
  | nil => exact ⟨[], .nil, List.nodup_singleton _⟩
  | @cons c d h hs pass rest ih =>
    obtain ⟨hs', r', hnodup⟩ := ih
    by_cases hc : c ∈ c.offset h :: cellsAlong (c.offset h) hs'
    · exact r'.exists_from hnodup hc
    · exact ⟨h :: hs', .cons pass r', List.nodup_cons.mpr ⟨hc, hnodup⟩⟩

/-- Every cell that a route enters is inside the bounds. -/
theorem inBounds_of_mem (r : Route g c hs d) {e : Cell} (he : e ∈ cellsAlong c hs) :
    g.inBounds e = true := by
  induction r with
  | nil => cases he
  | cons pass _ ih =>
    rcases List.mem_cons.mp he with rfl | he
    · exact inBounds_of_isPassable pass
    · exact ih he

/-- **A route that visits no cell twice is shorter than there are tiles.** -/
theorem length_lt (hg : g.Tiled) (r : Route g c hs d) (hc : g.inBounds c = true)
    (hnodup : (c :: cellsAlong c hs).Nodup) : hs.length < g.tiles.size := by
  have hlen := hg.length_le_of_nodup (fun e he => by
    rcases List.mem_cons.mp he with rfl | he
    · exact hc
    · exact r.inBounds_of_mem he) hnodup
  rwa [List.length_cons, length_cellsAlong] at hlen

end Route

end BlockCoding.Grid
