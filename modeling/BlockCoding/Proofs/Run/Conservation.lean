import BlockCoding.Proofs.Run.Stepping

/-!
# Proofs/Run/Conservation — no collectible is lost, and none is counted twice

What a run has collected and what its world still holds make up what there was at the start.
`Conserved` says so cell by cell: the collected cells are those whose collectible has become a path,
all others are as they were, and the pickups told are the collected cells, each once, numbered in
the order of the telling.  An action keeps it (`Effect.conserved`), hence every step, hence every
run (`collectibles_conserved`).
-/

namespace BlockCoding

/-! ## Pickups that are told -/

/-- The cell and the running total that an event tells of, if it tells of a pickup. -/
def Event.pickup? : Event → Option (Cell × Nat)
  | .collected cell total => some (cell, total)
  | _ => none

/-- The pickups that events tell of, in order. -/
def pickupsTold (events : List Event) : List (Cell × Nat) := events.filterMap Event.pickup?

theorem pickupsTold_append (told events : List Event) :
    pickupsTold (told ++ events) = pickupsTold told ++ pickupsTold events :=
  List.filterMap_append

/-- **The grid, the collected cells and the pickups told agree** with the world there is now. -/
structure Conserved (g world : Grid) (collected : CellSet) (told : List Event) : Prop where
  /-- Width, height, start and heading at the start are as they were. -/
  shape : Grid.SameShape g world
  collected_iff : ∀ c, c ∈ collected.cells ↔
    g.tile c = .ok (some .collectible) ∧ world.tile c = .ok (some .path)
  kept : ∀ c, c ∉ collected.cells → world.tile c = g.tile c
  count_add : world.count .collectible + collected.size = g.count .collectible
  told_nodup : ((pickupsTold told).map Prod.fst).Nodup
  told_iff : ∀ c, c ∈ (pickupsTold told).map Prod.fst ↔ c ∈ collected.cells
  totals_eq : (pickupsTold told).map Prod.snd = List.range' 1 collected.size

/-! ## One collectible less -/

/-- **Taking a collectible leaves one less.** -/
theorem Grid.Tiled.count_setTile {g : Grid} (hg : g.Tiled) {c : Cell}
    (hc : g.tile c = .ok (some .collectible)) :
    (g.setTile c .path).count .collectible + 1 = g.count .collectible := by
  simpa using hg.count_setTile_add hc .path .collectible

namespace Conserved

variable {g world : Grid} {collected : CellSet} {told events : List Event}

theorem start (g : Grid) : Conserved g g .empty [] where
  shape := .refl g
  collected_iff c := by
    refine ⟨fun hc => absurd hc List.not_mem_nil, fun ⟨hcollectible, hpath⟩ => ?_⟩
    rw [hcollectible] at hpath
    cases hpath
  kept _ _ := rfl
  count_add := rfl
  told_nodup := List.nodup_nil
  told_iff c := Iff.rfl
  totals_eq := rfl

/-- Events that tell of no pickup change nothing. -/
theorem tell (h : Conserved g world collected told) {told' : List Event}
    (hsame : pickupsTold told' = pickupsTold told) : Conserved g world collected told' where
  shape := h.shape
  collected_iff := h.collected_iff
  kept := h.kept
  count_add := h.count_add
  told_nodup := by rw [hsame]; exact h.told_nodup
  told_iff := by rw [hsame]; exact h.told_iff
  totals_eq := by rw [hsame]; exact h.totals_eq

/-- **A new collectible moves from the world to the collected cells.** -/
theorem take (h : Conserved g world collected told) (hw : world.Tiled) {c : Cell}
    (hthere : world.tile c = .ok (some .collectible)) (hfresh : c ∉ collected.cells) :
    Conserved g (world.setTile c .path) (collected.insert c)
      (told ++ [.collected c (collected.insert c).size]) := by
  have htile := hw.tile_setTile (Grid.inBounds_of_tile hthere) .path
  have hsize := CellSet.size_insert hfresh
  have htold : pickupsTold (told ++ [.collected c (collected.insert c).size])
      = pickupsTold told ++ [(c, (collected.insert c).size)] := pickupsTold_append told _
  refine ⟨h.shape.trans (Grid.sameShape_setTile world c .path), ?_, ?_, ?_, ?_, ?_, ?_⟩
  · intro d
    rw [CellSet.mem_insert, htile]
    by_cases hd : d = c
    · subst hd
      rw [← h.kept d hfresh, if_pos rfl]
      exact ⟨fun _ => ⟨hthere, rfl⟩, fun _ => .inl rfl⟩
    · rw [if_neg hd, ← h.collected_iff d]
      exact or_iff_right hd
  · intro d hd
    obtain ⟨hne, hold⟩ := not_or.mp (mt CellSet.mem_insert.mpr hd)
    rw [htile, if_neg hne]
    exact h.kept d hold
  · have hcount := hw.count_setTile hthere
    have hadd := h.count_add
    omega
  · rw [htold, List.map_append]
    refine h.told_nodup.append (List.nodup_singleton c) ?_
    rw [List.map_singleton, List.disjoint_singleton]
    exact mt (h.told_iff c).mp hfresh
  · intro d
    rw [htold, List.map_append, List.mem_append, h.told_iff d, CellSet.mem_insert, or_comm]
    exact or_congr_left List.mem_singleton
  · rw [htold, List.map_append, h.totals_eq, hsize, List.range'_1_concat, Nat.add_comm 1]
    rfl

/-! ## Every action -/

variable {rules : Rules} {ctx ctx' : Context} {world' : Grid}

/-- Picking up takes a new collectible or nothing: what is known already lies no more. -/
theorem pickedUp (h : Conserved g world ctx.collected told) (hw : world.Tiled)
    (hp : PickedUp world ctx world' ctx' events) :
    Conserved g world' ctx'.collected (told ++ events) := by
  cases hp with
  | taken there fresh => exact h.take hw there fresh
  | again there known =>
    have hpath := ((h.collected_iff ctx.pos).mp known).2
    rw [there] at hpath
    cases hpath
  | nothing absent => rwa [List.append_nil]

theorem gathered (h : Conserved g world ctx.collected told) (hw : world.Tiled)
    {occasion : Pickup} (hp : Gathered rules occasion world ctx world' ctx' events) :
    Conserved g world' ctx'.collected (told ++ events) := by
  cases hp with
  | off => rwa [List.append_nil]
  | on same pick => exact h.pickedUp hw pick

end Conserved

/-- **Every action conserves the collectibles.** -/
theorem Effect.conserved {rules : Rules} {g world world' : Grid} {ctx ctx' : Context}
    {told raised : List Event} {action : Action} (hw : world.Tiled)
    (h : Conserved g world ctx.collected told)
    (he : Effect rules world ctx action (.performed world' ctx' raised)) :
    Conserved g world' ctx'.collected (told ++ raised) := by
  cases he with
  | @moved _ heading _ _ _ picked move there free pick =>
    have hmoved : Conserved g world
        (({ ctx with pos := ctx.pos.offset heading }).spend rules.costs.step).collected
        (told ++ [.moved (ctx.pos.offset heading)]) :=
      h.tell (by rw [pickupsTold_append]; exact List.append_nil _)
    rw [List.append_cons]
    exact hmoved.gathered hw pick
  | collected pick =>
    have hgathered := h.gathered hw pick
    exact hgathered
  | turned | opened | sensed | scanned | inert =>
    exact h.tell (by rw [pickupsTold_append]; exact List.append_nil _)

namespace GridRun

/-- A run that conserves the collectibles of `g`, by what it has told. -/
def Conserves (g : Grid) (told : List Event) (r : GridRun) : Prop :=
  Conserved g r.world r.context.collected told

/-- **Every step conserves the collectibles**, the one that ends the run included. -/
theorem Stepped.conserves {g : Grid} {told events : List Event} {r r' : GridRun} (hr : r.Sound)
    (h : r.Conserves g told) (hs : r.Stepped events r') : r'.Conserves g (told ++ events) := by
  cases hs with
  | exhausted | rejected =>
    exact h.tell (by rw [pickupsTold_append]; exact List.append_nil _)
  | @ended index cursor action rest pending world context raised verdict next done =>
    have heffect := r.rules.effect_of_perform hr.tiled r.context done
    refine (heffect.conserved hr.tiled h).tell ?_
    rw [pickupsTold_append, pickupsTold_append, pickupsTold_append]
    exact congrArg _ (List.append_nil _)
  | @continued index cursor action rest pending world context raised next done =>
    have heffect := r.rules.effect_of_perform hr.tiled r.context done
    refine (heffect.conserved hr.tiled h).tell ?_
    rw [pickupsTold_append, pickupsTold_append]
    rfl

/-- **Collectibles are conserved.**  However many steps a run takes from the start of a well-formed
grid, its shape is as it was, the collected cells are those whose collectible has become a path, no
other cell has changed, and the pickups told are the collected cells, each once, numbered from one
on. -/
theorem collectibles_conserved {g : Grid} (hg : g.WellFormed) (rules : Rules)
    (program : List Action) (n : Nat) :
    ∃ events r, stepTimes n (start g rules program) = .ok (events, r) ∧
      Conserved g r.world r.context.collected events := by
  have hsound := sound_start hg rules program
  obtain ⟨events, r, hsteps, -, h⟩ :=
    hsound.exists_stepTimes (fun hr h hs => hs.conserves hr h) (Conserved.start g) n
  exact ⟨events, r, hsteps, h⟩

/-- The whole of the winning program in the ruins, where all three crystals are collected. -/
theorem collectibles_conserved_ruins : Ruins.grid.WellFormed ∧
    ∃ events r, stepTimes 24 (start Ruins.grid .ruins (Action.ofNames Ruins.solution))
        = .ok (events, r) ∧
      r.context.collected.size = 3 ∧ Conserved Ruins.grid r.world r.context.collected events := by
  have hw : Ruins.grid.WellFormed := by decide +kernel
  obtain ⟨events, r, hsteps, h⟩ :=
    collectibles_conserved hw .ruins (Action.ofNames Ruins.solution) 24
  have hsize : (stepTimes 24 (start Ruins.grid .ruins (Action.ofNames Ruins.solution))).map
      (fun s => s.2.context.collected.size) = .ok 3 := by decide +kernel
  rw [hsteps] at hsize
  exact ⟨hw, events, r, hsteps, Except.ok.inj hsize, h⟩

end GridRun

end BlockCoding
