import BlockCoding.Proofs.Fault
import BlockCoding.Proofs.Grid.Clearing
import BlockCoding.Run.Perform

/-!
# Proofs/Run/Effect — everything an action can do

`Rules.perform` is a program; `Effect` lists what can come of it, one constructor for each way an
action can go.  `Rules.exists_effect` says that on a tiled world an action always comes to an
outcome and that the outcome is one of these; only at the end of the coordinates may a move break
off (`Rules.effect_or_overflow`).  What a run keeps is proved by going through the constructors,
never by opening `perform`.
-/

namespace BlockCoding

/-! ## Picking up -/

/-- **What picking up can do** to a world and a context, with the events it raises. -/
inductive PickedUp (world : Grid) (ctx : Context) : Grid → Context → List Event → Prop where
  /-- The collectible underfoot is new. -/
  | taken (there : world.tile ctx.pos = .ok (some .collectible))
      (fresh : ctx.pos ∉ ctx.collected.cells) :
      PickedUp world ctx (world.setTile ctx.pos .path)
        { ctx with collected := ctx.collected.insert ctx.pos }
        [.collected ctx.pos (ctx.collected.insert ctx.pos).size]
  /-- The cell is known; its collectible goes all the same. -/
  | again (there : world.tile ctx.pos = .ok (some .collectible))
      (known : ctx.pos ∈ ctx.collected.cells) :
      PickedUp world ctx (world.setTile ctx.pos .path) ctx []
  /-- There is no collectible underfoot. -/
  | nothing (absent : world.tile ctx.pos ≠ .ok (some .collectible)) :
      PickedUp world ctx world ctx []

theorem Context.exists_pickedUp {world : Grid} (hw : world.Tiled) (ctx : Context) :
    ∃ world' ctx' picked, ctx.pickUp world = .ok (world', ctx', picked) ∧
      PickedUp world ctx world' ctx' picked := by
  by_cases hthere : world.tile ctx.pos = .ok (some .collectible)
  · by_cases hknown : ctx.pos ∈ ctx.collected.cells
    · refine ⟨_, _, _, ?_, .again hthere hknown⟩
      have hc := CellSet.contains_eq_true_iff.mpr hknown
      simp [pickUp, hw.clear_eq, hthere, hc]
    · refine ⟨_, _, _, ?_, .taken hthere hknown⟩
      have hc : ctx.collected.contains ctx.pos = false := by
        rw [Bool.eq_false_iff, Ne, CellSet.contains_eq_true_iff]
        exact hknown
      simp [pickUp, hw.clear_eq, hthere, hc]
  · refine ⟨_, _, _, ?_, .nothing hthere⟩
    simp [pickUp, hw.clear_eq, hthere]

/-- Picking up where the rules say so, and nothing elsewhere. -/
inductive Gathered (rules : Rules) (occasion : Pickup) (world : Grid) (ctx : Context) :
    Grid → Context → List Event → Prop where
  | off (other : rules.pickup ≠ occasion) : Gathered rules occasion world ctx world ctx []
  | on {world' : Grid} {ctx' : Context} {picked : List Event} (same : rules.pickup = occasion)
      (pick : PickedUp world ctx world' ctx' picked) :
      Gathered rules occasion world ctx world' ctx' picked

/-! ## Actions -/

/-- The heading an action moves along, if it is a move. -/
def Action.towards (heading : Heading) : Action → Option Heading
  | .moveUp => some .up
  | .moveDown => some .down
  | .moveLeft => some .left
  | .moveRight => some .right
  | .step => some heading
  | _ => none

/-- The heading an action turns to, if it is a turn. -/
def Action.turned (heading : Heading) : Action → Option Heading
  | .turnLeft => some heading.turnLeft
  | .turnRight => some heading.turnRight
  | _ => none

/-- Whether an action does nothing on a grid. -/
def Action.isInert : Action → Bool
  | .repeatNext _ | .forever | .ifEdge | .bounce | .color | .goLeft | .goRight | .incScore
  | .resetScore => true
  | _ => false

/-- A turn is no move. -/
theorem Action.towards_of_turned {action : Action} {facing heading : Heading}
    (h : action.turned facing = some heading) : action.towards facing = none := by
  cases action <;> first | rfl | cases h

/-- Nor is an action that does nothing. -/
theorem Action.towards_of_isInert {action : Action} {facing : Heading}
    (h : action.isInert = true) : action.towards facing = none := by
  cases action <;> first | rfl | cases h

/-- **What can come of an action** in a world and a context. -/
inductive Effect (rules : Rules) (world : Grid) (ctx : Context) : Action → Outcome → Prop where
  /-- A move over the edge is refused. -/
  | offGrid {action : Action} {heading : Heading} (move : action.towards ctx.heading = some heading)
      (outside : world.tile (ctx.pos.offset heading) = .ok none) :
      Effect rules world ctx action (.rejected (.offGrid (ctx.pos.offset heading)))
  /-- A move into what cannot be entered is refused. -/
  | blocked {action : Action} {heading : Heading} {tile : Tile}
      (move : action.towards ctx.heading = some heading)
      (there : world.tile (ctx.pos.offset heading) = .ok (some tile))
      (closed : tile.isPassable ctx.gateOpen = false) :
      Effect rules world ctx action (.rejected (.blocked (ctx.pos.offset heading) tile))
  /-- Any other move is made, and may pick up what is there. -/
  | moved {action : Action} {heading : Heading} {tile : Tile} {world' : Grid} {ctx' : Context}
      {picked : List Event} (move : action.towards ctx.heading = some heading)
      (there : world.tile (ctx.pos.offset heading) = .ok (some tile))
      (free : tile.isPassable ctx.gateOpen = true)
      (pick : Gathered rules .onEnter world
        (({ ctx with pos := ctx.pos.offset heading }).spend rules.costs.step) world' ctx' picked) :
      Effect rules world ctx action
        (.performed world' ctx' (.moved (ctx.pos.offset heading) :: picked))
  /-- A turn is always made. -/
  | turned {action : Action} {heading : Heading} (turn : action.turned ctx.heading = some heading) :
      Effect rules world ctx action (.performed world
        (({ ctx with heading }).spend rules.costs.turn) [.turned heading])
  /-- On a switch, closed gates open. -/
  | opened (closed : ctx.gateOpen = false) (there : world.tile ctx.pos = .ok (some .switch)) :
      Effect rules world ctx .ifSwitch (.performed world
        (({ ctx with gateOpen := true }).spend rules.costs.sense) [.gateOpened])
  /-- Elsewhere, or with the gates open, a switch block only costs. -/
  | sensed (idle : ctx.gateOpen = true ∨ world.tile ctx.pos ≠ .ok (some .switch)) :
      Effect rules world ctx .ifSwitch (.performed world (ctx.spend rules.costs.sense) [])
  | scanned : Effect rules world ctx .scan
      (.performed world (ctx.spend rules.costs.sense) [.scanned])
  | collected {world' : Grid} {ctx' : Context} {picked : List Event}
      (pick : Gathered rules .onCollect world ctx world' ctx' picked) :
      Effect rules world ctx .collect (.performed world' (ctx'.spend rules.costs.collect) picked)
  | inert {action : Action} (nothing : action.isInert = true) :
      Effect rules world ctx action (.performed world ctx [])

namespace Rules

variable {world : Grid} (rules : Rules) (hw : world.Tiled) (ctx : Context)

include hw in
/-- Picking up where the rules say so always comes to something. -/
private theorem exists_gathered (occasion : Pickup) :
    ∃ world' ctx' picked, Gathered rules occasion world ctx world' ctx' picked ∧
      (rules.pickup = occasion → ctx.pickUp world = .ok (world', ctx', picked)) ∧
      (rules.pickup ≠ occasion → (world', ctx', picked) = (world, ctx, [])) := by
  by_cases h : rules.pickup = occasion
  · obtain ⟨world', ctx', picked, heq, hpick⟩ := ctx.exists_pickedUp hw
    exact ⟨world', ctx', picked, .on h hpick, fun _ => heq, fun hne => absurd h hne⟩
  · exact ⟨world, ctx, [], .off h, fun heq => absurd heq h, fun _ => rfl⟩

include hw in
/-- A cell is entered or not. -/
private theorem exists_effect_enter {action : Action} {heading : Heading}
    (hmove : action.towards ctx.heading = some heading) :
    ∃ outcome, rules.enter world ctx (ctx.pos.offset heading) = .ok outcome ∧
      Effect rules world ctx action outcome := by
  obtain ⟨o, ho, -⟩ := hw.tile_eq_ok (ctx.pos.offset heading)
  cases o with
  | none => exact ⟨_, by simp [enter, ho], .offGrid hmove ho⟩
  | some tile =>
    cases hpass : tile.isPassable ctx.gateOpen with
    | false => exact ⟨_, by simp [enter, ho, hpass], .blocked hmove ho hpass⟩
    | true =>
      obtain ⟨world', ctx', picked, hpick, hon, hoff⟩ := rules.exists_gathered hw
        (({ ctx with pos := ctx.pos.offset heading }).spend rules.costs.step) .onEnter
      refine ⟨.performed world' ctx' (.moved (ctx.pos.offset heading) :: picked), ?_,
        .moved hmove ho hpass hpick⟩
      cases hp : rules.pickup with
      | onEnter => simp [enter, ho, hpass, hp, hon hp]
      | onCollect =>
        obtain ⟨rfl, rfl, rfl⟩ := by simpa using hoff (by rw [hp]; decide)
        simp [enter, ho, hpass, hp]

include hw in
/-- A move is refused or made, if there is a neighbour to move to. -/
private theorem effect_or_overflow_move {action : Action} {heading : Heading}
    (hmove : action.towards ctx.heading = some heading) :
    (∃ outcome, rules.move world ctx heading = .ok outcome ∧
        Effect rules world ctx action outcome) ∨
      rules.move world ctx heading = .error .overflow ∧ ∃ heading,
        action.towards ctx.heading = some heading ∧
          ctx.pos.offset? heading = .error .overflow := by
  rw [move]
  rcases ctx.pos.offset?_ok_or_overflow heading with hnext | hnext
  · rw [hnext, ok_bind]
    exact .inl (exists_effect_enter rules hw ctx hmove)
  · rw [hnext, error_bind]
    exact .inr ⟨rfl, heading, hmove, hnext⟩

include hw in
/-- A switch block opens the gates or only costs. -/
private theorem exists_effect_tripSwitch : ∃ outcome,
    rules.tripSwitch world ctx = .ok outcome ∧ Effect rules world ctx .ifSwitch outcome := by
  obtain ⟨o, ho, -⟩ := hw.tile_eq_ok ctx.pos
  cases hgate : ctx.gateOpen with
  | true => exact ⟨_, by simp [tripSwitch, hgate], .sensed (.inl hgate)⟩
  | false =>
    by_cases hthere : o = some .switch
    · exact ⟨_, by simp [tripSwitch, hgate, ho, hthere], .opened hgate (by rw [ho, hthere])⟩
    · exact ⟨_, by simp [tripSwitch, hgate, ho, hthere],
        .sensed (.inr fun h => hthere (Except.ok.inj (ho.symm.trans h)))⟩

include hw in
/-- A collect block picks up where the rules leave it to such blocks, and always costs. -/
private theorem exists_effect_collect : ∃ outcome,
    rules.collect world ctx = .ok outcome ∧ Effect rules world ctx .collect outcome := by
  obtain ⟨world', ctx', picked, hpick, hon, hoff⟩ := rules.exists_gathered hw ctx .onCollect
  refine ⟨.performed world' (ctx'.spend rules.costs.collect) picked, ?_, .collected hpick⟩
  cases hp : rules.pickup with
  | onCollect => simp [collect, hp, hon hp]
  | onEnter =>
    obtain ⟨rfl, rfl, rfl⟩ := by simpa using hoff (by rw [hp]; decide)
    simp [collect, hp]

include hw in
/-- **An action comes to an effect of it**, unless it is a move to a neighbour that is missing. -/
theorem effect_or_overflow (action : Action) :
    (∃ outcome, rules.perform world ctx action = .ok outcome ∧
        Effect rules world ctx action outcome) ∨
      rules.perform world ctx action = .error .overflow ∧ ∃ heading,
        action.towards ctx.heading = some heading ∧
          ctx.pos.offset? heading = .error .overflow := by
  cases action with
  | moveUp | moveDown | moveLeft | moveRight | step =>
    exact effect_or_overflow_move rules hw ctx rfl
  | turnLeft | turnRight => exact .inl ⟨_, rfl, .turned rfl⟩
  | ifSwitch => exact .inl (exists_effect_tripSwitch rules hw ctx)
  | collect => exact .inl (exists_effect_collect rules hw ctx)
  | scan => exact .inl ⟨_, rfl, .scanned⟩
  | repeatNext | forever | ifEdge | bounce | color | goLeft | goRight | incScore | resetScore =>
    exact .inl ⟨_, rfl, .inert rfl⟩

include hw in
/-- **Away from the rim an action always comes to an outcome, and the outcome is an effect.** -/
theorem exists_effect (hpos : ¬ ctx.pos.OnRim) (action : Action) :
    ∃ outcome, rules.perform world ctx action = .ok outcome ∧
      Effect rules world ctx action outcome := by
  refine (effect_or_overflow rules hw ctx action).resolve_right ?_
  rintro ⟨-, heading, -, hmissing⟩
  rw [Cell.offset?_of_not_onRim hpos] at hmissing
  cases hmissing

include hw in
/-- What an action comes to is an effect of it. -/
theorem effect_of_perform {action : Action} {outcome : Outcome}
    (h : rules.perform world ctx action = .ok outcome) : Effect rules world ctx action outcome := by
  rcases effect_or_overflow rules hw ctx action with ⟨outcome', h', heffect⟩ | ⟨hfault, -⟩
  · obtain rfl : outcome' = outcome := Except.ok.inj (h'.symm.trans h)
    exact heffect
  · rw [hfault] at h
    cases h

end Rules

/-! ## What every effect keeps -/

@[simp] theorem Context.spend_pos (ctx : Context) (cost : UInt32) :
    (ctx.spend cost).pos = ctx.pos := rfl

section Cleared

variable {rules : Rules} {g world world' : Grid} {ctx ctx' : Context} {raised : List Event}

/-- Picking up clears the world of collectibles at most. -/
theorem PickedUp.clearedFrom (hg : g.Tiled) (hw : Grid.ClearedFrom g world)
    (h : PickedUp world ctx world' ctx' raised) : Grid.ClearedFrom g world' := by
  cases h with
  | taken there | again there => exact hw.setTile_path hg there
  | nothing => exact hw

theorem Gathered.clearedFrom {occasion : Pickup} (hg : g.Tiled) (hw : Grid.ClearedFrom g world)
    (h : Gathered rules occasion world ctx world' ctx' raised) : Grid.ClearedFrom g world' := by
  cases h with
  | off => exact hw
  | on same pick => exact pick.clearedFrom hg hw

/-- **No action changes the world but for its collectibles.** -/
theorem Effect.clearedFrom {action : Action} (hg : g.Tiled) (hw : Grid.ClearedFrom g world)
    (h : Effect rules world ctx action (.performed world' ctx' raised)) :
    Grid.ClearedFrom g world' := by
  cases h with
  | moved move there free pick => exact pick.clearedFrom hg hw
  | collected pick => exact pick.clearedFrom hg hw
  | turned | opened | sensed | scanned | inert => exact hw

end Cleared

/-- Picking up changes what is collected and nothing else of a context. -/
theorem PickedUp.context_eq {world world' : Grid} {ctx ctx' : Context} {picked : List Event}
    (h : PickedUp world ctx world' ctx' picked) :
    ctx' = { ctx with collected := ctx'.collected } := by
  cases h <;> rfl

theorem Gathered.context_eq {rules : Rules} {occasion : Pickup} {world world' : Grid}
    {ctx ctx' : Context} {picked : List Event}
    (h : Gathered rules occasion world ctx world' ctx' picked) :
    ctx' = { ctx with collected := ctx'.collected } := by
  cases h with
  | off => rfl
  | on same pick => exact pick.context_eq

/-- **An action leaves the avatar where it is, or brings it inside the bounds.** -/
theorem Effect.pos_eq_or_inBounds {rules : Rules} {world world' : Grid} {ctx ctx' : Context}
    {action : Action} {raised : List Event}
    (h : Effect rules world ctx action (.performed world' ctx' raised)) :
    ctx'.pos = ctx.pos ∨ world.inBounds ctx'.pos = true := by
  cases h with
  | moved move there free pick =>
    rw [pick.context_eq]
    exact .inr (Grid.inBounds_of_tile there)
  | collected pick =>
    rw [Context.spend_pos, pick.context_eq]
    exact .inl rfl
  | turned | opened | sensed | scanned | inert => exact .inl rfl

/-- A cell that can be entered has a tile that lets the avatar in. -/
theorem Grid.exists_tile_of_isPassable {world : Grid} {c : Cell} {gateOpen : Bool}
    (h : world.isPassable c gateOpen = .ok true) :
    ∃ tile, world.tile c = .ok (some tile) ∧ tile.isPassable gateOpen = true := by
  obtain ⟨o, ho, h⟩ := bind_eq_ok.mp h
  cases o with
  | none => cases h
  | some tile => exact ⟨tile, ho, Except.ok.inj h⟩

/-- **A move into a cell that can be entered is made.** -/
theorem Rules.exists_moved {world : Grid} (rules : Rules) (hw : world.Tiled) (ctx : Context)
    {action : Action} {heading : Heading} (hmove : action.towards ctx.heading = some heading)
    (hpass : world.isPassable (ctx.pos.offset heading) ctx.gateOpen = .ok true) :
    ∃ world' ctx' picked, rules.perform world ctx action
        = .ok (.performed world' ctx' (.moved (ctx.pos.offset heading) :: picked)) ∧
      Gathered rules .onEnter world
        (({ ctx with pos := ctx.pos.offset heading }).spend rules.costs.step) world' ctx'
        picked := by
  obtain ⟨tile, htile, hfree⟩ := Grid.exists_tile_of_isPassable hpass
  have hnext := Grid.offset?_of_inBounds_offset (Grid.inBounds_of_tile htile)
  obtain ⟨outcome, hperform, heffect⟩ := (rules.effect_or_overflow hw ctx action).resolve_right
    fun ⟨_, _, hmove', hmissing⟩ => by
      obtain rfl := Option.some.inj (hmove.symm.trans hmove')
      rw [hnext] at hmissing
      cases hmissing
  cases heffect with
  | offGrid move outside =>
    obtain rfl := Option.some.inj (hmove.symm.trans move)
    rw [htile] at outside
    cases outside
  | blocked move there closed =>
    obtain rfl := Option.some.inj (hmove.symm.trans move)
    rw [htile] at there
    obtain rfl := Option.some.inj (Except.ok.inj there)
    rw [hfree] at closed
    cases closed
  | moved move there free pick =>
    obtain rfl := Option.some.inj (hmove.symm.trans move)
    exact ⟨_, _, _, hperform, pick⟩
  | turned turn =>
    rw [Action.towards_of_turned turn] at hmove
    cases hmove
  | opened | sensed | scanned | collected => cases hmove
  | inert nothing =>
    rw [Action.towards_of_isInert nothing] at hmove
    cases hmove

/-- On a tiled world a win rule always has an answer. -/
theorem WinRule.exists_holds {world : Grid} (hw : world.Tiled) (rule : WinRule) (ctx : Context) :
    ∃ b, rule.holds world ctx = .ok b := by
  obtain ⟨o, ho, -⟩ := hw.tile_eq_ok ctx.pos
  cases rule with
  | reachGoal required =>
    exact ⟨decide (o = some .goal) && decide (required.toNat ≤ ctx.collected.size),
      by simp [holds, ho]⟩
  | collect required => exact ⟨_, rfl⟩

end BlockCoding
