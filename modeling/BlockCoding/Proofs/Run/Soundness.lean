import BlockCoding.Proofs.Run.Refinement
import Mathlib.Algebra.GroupWithZero.Nat

/-!
# Proofs/Run/Soundness — what a run keeps from step to step

A run stays inside its world: `GridRun.Sound` says so of the avatar and of the cells it has
collected.  `Sound.exists_step` gives the step of a sound run, which is sound again, under the same
rules, with as many cells collected as the events it raised say.
-/

namespace BlockCoding

/-! ## Counting what is collected -/

/-- Whether an event tells of a collectible that is picked up. -/
def Event.isCollected : Event → Bool
  | .collected _ _ => true
  | _ => false

theorem length_insertCell {c : Cell} {cells : List Cell} (h : c ∉ cells) :
    (insertCell c cells).length = cells.length + 1 := by
  induction cells with
  | nil => rfl
  | cons d rest ih =>
    obtain ⟨hne, hrest⟩ := not_or.mp (mt List.mem_cons.mpr h)
    rw [insertCell]
    split
    · rfl
    · rw [List.length_cons, ih hrest, List.length_cons]

/-- A new cell makes a set larger by one. -/
theorem CellSet.size_insert {s : CellSet} {c : Cell} (h : c ∉ s.cells) :
    (s.insert c).size = s.size + 1 := length_insertCell h

theorem Cell.Before.ne {c d : Cell} (h : c.Before d) : c ≠ d := by
  rintro rfl
  exact Cell.Before.irrefl _ h

/-- No cell is in a set twice. -/
theorem CellSet.nodup (s : CellSet) : s.cells.Nodup := s.sorted.imp Cell.Before.ne

section Counting

variable {rules : Rules} {world world' : Grid} {ctx ctx' : Context} {raised : List Event}

/-- Whatever is picked up new is announced, and nothing else is. -/
theorem PickedUp.size_eq (h : PickedUp world ctx world' ctx' raised) :
    ctx'.collected.size = ctx.collected.size + raised.countP Event.isCollected := by
  cases h with
  | taken there fresh => exact CellSet.size_insert fresh
  | again | nothing => rfl

theorem Gathered.size_eq {occasion : Pickup}
    (h : Gathered rules occasion world ctx world' ctx' raised) :
    ctx'.collected.size = ctx.collected.size + raised.countP Event.isCollected := by
  cases h with
  | off => rfl
  | on same pick => exact pick.size_eq

/-- Picking up tells of pickups and of nothing else. -/
theorem PickedUp.isCollected_of_mem (h : PickedUp world ctx world' ctx' raised) {event : Event}
    (hmem : event ∈ raised) : event.isCollected = true := by
  cases h with
  | taken =>
    obtain rfl := List.mem_singleton.mp hmem
    rfl
  | again | nothing => exact absurd hmem List.not_mem_nil

theorem Gathered.isCollected_of_mem {occasion : Pickup}
    (h : Gathered rules occasion world ctx world' ctx' raised) {event : Event}
    (hmem : event ∈ raised) : event.isCollected = true := by
  cases h with
  | off => exact absurd hmem List.not_mem_nil
  | on same pick => exact pick.isCollected_of_mem hmem

/-- **The collected cells grow by the pickups that an action announces.** -/
theorem Effect.size_eq {action : Action}
    (h : Effect rules world ctx action (.performed world' ctx' raised)) :
    ctx'.collected.size = ctx.collected.size + raised.countP Event.isCollected := by
  cases h with
  | moved move there free pick =>
    rw [List.countP_cons_of_neg Bool.false_ne_true]
    exact pick.size_eq
  | collected pick => exact pick.size_eq
  | turned | opened | sensed | scanned | inert => rfl

end Counting

/-! ## Staying inside -/

/-- The avatar and everything it has collected are inside a world. -/
structure Context.Inside (ctx : Context) (world : Grid) : Prop where
  pos : world.inBounds ctx.pos = true
  collected : ∀ c ∈ ctx.collected.cells, world.inBounds c = true

namespace Context.Inside

variable {rules : Rules} {g world world' : Grid} {ctx ctx' : Context} {raised : List Event}

theorem initial (hg : g.WellFormed) (rules : Rules) : (Context.initial g rules).Inside g :=
  ⟨hg.inBounds_start, fun _ hc => absurd hc List.not_mem_nil⟩

/-- What is inside a world is so inside any of its shape. -/
theorem of_sameShape (h : ctx.Inside g) (hs : Grid.SameShape g world) : ctx.Inside world :=
  ⟨(hs.inBounds_eq _).trans h.pos, fun c hc => (hs.inBounds_eq c).trans (h.collected c hc)⟩

theorem spend (h : ctx.Inside g) (cost : UInt32) : (ctx.spend cost).Inside g :=
  ⟨h.pos, h.collected⟩

theorem pickedUp (h : ctx.Inside g) (hp : PickedUp world ctx world' ctx' raised) :
    ctx'.Inside g := by
  cases hp with
  | taken there fresh =>
    refine ⟨h.pos, fun c hc => ?_⟩
    rcases CellSet.mem_insert.mp hc with rfl | hc
    · exact h.pos
    · exact h.collected c hc
  | again | nothing => exact h

theorem gathered (h : ctx.Inside g) {occasion : Pickup}
    (hp : Gathered rules occasion world ctx world' ctx' raised) : ctx'.Inside g := by
  cases hp with
  | off => exact h
  | on same pick => exact h.pickedUp pick

/-- **No action leads outside.** -/
theorem effect (h : ctx.Inside world) {action : Action}
    (he : Effect rules world ctx action (.performed world' ctx' raised)) : ctx'.Inside world := by
  cases he with
  | @moved _ heading _ _ _ _ move there free pick =>
    have hentered : Context.Inside { ctx with pos := ctx.pos.offset heading } world :=
      ⟨Grid.inBounds_of_tile there, h.collected⟩
    exact (hentered.spend _).gathered pick
  | collected pick => exact (h.gathered pick).spend _
  | turned | opened | sensed | scanned => exact ⟨h.pos, h.collected⟩
  | inert => exact h

/-- Inside, every neighbour is there to be asked for. -/
theorem not_onRim (h : ctx.Inside world) : ¬ ctx.pos.OnRim := Grid.not_onRim_of_inBounds h.pos

/-- There are no more collected cells than tiles. -/
theorem size_le (h : ctx.Inside world) (hw : world.Tiled) :
    ctx.collected.size ≤ world.tiles.size :=
  hw.length_le_of_nodup h.collected ctx.collected.nodup

end Context.Inside

/-! ## Sound runs -/

namespace GridRun

/-- **A run in order**: it is inside a world that is tiled, and can go on if it is not over. -/
structure Sound (r : GridRun) : Prop where
  tiled : r.world.Tiled
  inside : r.context.Inside r.world
  coherent : r.verdict = none → r.Coherent

theorem sound_start {world : Grid} (hw : world.WellFormed) (rules : Rules)
    (program : List Action) : (start world rules program).Sound :=
  ⟨hw.tiled, .initial hw rules, fun _ => coherent_start world rules program⟩

/-- After an action the run is inside the world that the action leaves. -/
theorem Sound.perform {r : GridRun} (h : r.Sound) {action : Action} {world : Grid}
    {context : Context} {raised : List Event}
    (hdone : r.rules.perform r.world r.context action = .ok (.performed world context raised)) :
    world.Tiled ∧ context.Inside world ∧
      context.collected.size = r.context.collected.size + raised.countP Event.isCollected := by
  have heffect := r.rules.effect_of_perform h.tiled r.context hdone
  have hshape := (heffect.clearedFrom h.tiled (.refl r.world)).shape
  exact ⟨hshape.tiled h.tiled, (h.inside.effect heffect).of_sameShape hshape, heffect.size_eq⟩

/-- **A sound run that is not over takes a step, and stays sound**, under its rules and with its
pickups counted. -/
theorem Sound.exists_step {r : GridRun} (h : r.Sound) (hv : r.verdict = none) :
    ∃ events r', r.step = .ok (events, r') ∧ r'.Sound ∧ r'.rules = r.rules ∧
      r'.context.collected.size
        = r.context.collected.size + events.countP Event.isCollected := by
  obtain ⟨events, r', hstep, hstepped⟩ :=
    exists_stepped h.tiled h.inside.not_onRim hv (h.coherent hv)
  refine ⟨events, r', hstep, ?_⟩
  cases hstepped with
  | exhausted cursor executing hempty => exact ⟨⟨h.tiled, h.inside, nofun⟩, rfl, rfl⟩
  | rejected cursor pending hnext hrefused => exact ⟨⟨h.tiled, h.inside, nofun⟩, rfl, rfl⟩
  | ended hnext hdone hleft hdue =>
    obtain ⟨htiled, hinside, hsize⟩ := h.perform hdone
    refine ⟨⟨htiled, hinside, nofun⟩, rfl, hsize.trans ?_⟩
    rw [List.countP_append, List.countP_cons_of_neg Bool.false_ne_true]
    rfl
  | continued hnext hdone hleft hcoh hdue =>
    obtain ⟨htiled, hinside, hsize⟩ := h.perform hdone
    refine ⟨⟨htiled, hinside, fun _ => hcoh⟩, rfl, hsize.trans ?_⟩
    rw [List.countP_cons_of_neg Bool.false_ne_true]

/-- The number of collected cells is no coordinate overflow. -/
theorem Sound.size_lt {r : GridRun} (h : r.Sound) : r.context.collected.size < 2 ^ 32 := by
  have hle := h.inside.size_le h.tiled
  have hsize := h.tiled.size_eq
  have harea := h.tiled.area_lt
  omega

end GridRun

end BlockCoding
