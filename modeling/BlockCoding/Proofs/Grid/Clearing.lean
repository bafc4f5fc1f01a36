import BlockCoding.Proofs.Grid.Bounds

/-!
# Proofs/Grid/Clearing — a world that loses its collectibles

A run changes its world in one way: it takes a collectible off a cell.  `ClearedFrom` compares a
world with the grid it was at the start; goals, walls and gates are where they were, and what can
be entered stays so.
-/

namespace BlockCoding.Grid

/-- What clearing a cell comes to. -/
theorem Tiled.clear_eq {g : Grid} (hg : g.Tiled) (c : Cell) :
    g.clear c = .ok (if g.tile c = .ok (some .collectible) then (true, g.setTile c .path)
      else (false, g)) := by
  obtain ⟨o, ho, -⟩ := hg.tile_eq_ok c
  rw [clear, ho]
  match o with
  | none | some .path | some .wall | some .switch | some .gate | some .collectible
  | some .goal => rfl

/-- **The same grid but for collectibles that are paths now.** -/
structure ClearedFrom (g w : Grid) : Prop where
  shape : SameShape g w
  tile : ∀ c, w.tile c = g.tile c ∨
    g.tile c = .ok (some .collectible) ∧ w.tile c = .ok (some .path)

namespace ClearedFrom

variable {g w : Grid}

theorem refl (g : Grid) : ClearedFrom g g := ⟨.refl g, fun _ => .inl rfl⟩

/-- Taking one more collectible. -/
theorem setTile_path (h : ClearedFrom g w) (hg : g.Tiled) {c : Cell}
    (hc : w.tile c = .ok (some .collectible)) : ClearedFrom g (w.setTile c .path) where
  shape := h.shape.trans (sameShape_setTile w c .path)
  tile d := by
    rw [(h.shape.tiled hg).tile_setTile (inBounds_of_tile hc)]
    by_cases hdc : d = c
    · subst hdc
      rw [if_pos rfl]
      rcases h.tile d with hd | ⟨hd, -⟩
      · exact .inr ⟨hd.symm.trans hc, rfl⟩
      · exact .inr ⟨hd, rfl⟩
    · rw [if_neg hdc]
      exact h.tile d

/-- A tile that is neither a path nor a collectible is where it was. -/
theorem tile_iff (h : ClearedFrom g w) {c : Cell} {t : Tile} (hpath : t ≠ .path)
    (hcoll : t ≠ .collectible) : w.tile c = .ok (some t) ↔ g.tile c = .ok (some t) := by
  rcases h.tile c with hc | ⟨hg, hw⟩
  · rw [hc]
  · rw [hg, hw]
    simp [hpath.symm, hcoll.symm]

/-- Goals are where they were. -/
theorem goal_iff (h : ClearedFrom g w) {c : Cell} :
    w.tile c = .ok (some .goal) ↔ g.tile c = .ok (some .goal) :=
  h.tile_iff (by decide) (by decide)

/-- **What can be entered stays so.** -/
theorem isPassable_eq (h : ClearedFrom g w) (c : Cell) (gateOpen : Bool) :
    w.isPassable c gateOpen = g.isPassable c gateOpen := by
  rcases h.tile c with hc | ⟨hg, hw⟩
  · rw [isPassable, isPassable, hc]
  · rw [isPassable, isPassable, hg, hw]
    rfl

end ClearedFrom

end BlockCoding.Grid
