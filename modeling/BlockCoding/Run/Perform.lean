import BlockCoding.Block.Action
import BlockCoding.Run.Context

/-!
# Run/Perform — the effect of one action on a grid world

`Rules.perform` applies one action to a world and a context.  Either the action is a move that is
rejected, and then nothing has changed, or it takes effect and raises its events.
-/

namespace BlockCoding

/-- What becomes of one action. -/
inductive Outcome where
  /-- The move was refused; world and context are as they were. -/
  | rejected (cause : FailCause)
  | performed (world : Grid) (context : Context) (events : List Event)

/-- Takes the collectible underfoot, if there is one. -/
def Context.pickUp (ctx : Context) (world : Grid) :
    Except Fault (Grid × Context × List Event) := do
  let (taken, cleared) ← world.clear ctx.pos
  if taken && !ctx.collected.contains ctx.pos then
    let collected := ctx.collected.insert ctx.pos
    pure (cleared, { ctx with collected }, [.collected ctx.pos collected.size])
  else pure (cleared, ctx, [])

namespace Rules

/-- Enters a cell next to the avatar, if that can be entered. -/
def enter (rules : Rules) (world : Grid) (ctx : Context) (target : Cell) :
    Except Fault Outcome := do
  match ← world.tile target with
  | none => pure (.rejected (.offGrid target))
  | some tile =>
    if tile.isPassable ctx.gateOpen then
      let ctx := ({ ctx with pos := target }).spend rules.costs.step
      match rules.pickup with
      | .onEnter => do
        let (world, ctx, picked) ← ctx.pickUp world
        pure (.performed world ctx (.moved target :: picked))
      | .onCollect => pure (.performed world ctx [.moved target])
    else pure (.rejected (.blocked target tile))

/-- Moves one cell along a heading. -/
def move (rules : Rules) (world : Grid) (ctx : Context) (heading : Heading) :
    Except Fault Outcome := do
  rules.enter world ctx (← ctx.pos.offset? heading)

/-- Turns on the spot. -/
def turn (rules : Rules) (world : Grid) (ctx : Context) (heading : Heading) : Outcome :=
  .performed world (({ ctx with heading }).spend rules.costs.turn) [.turned heading]

/-- Opens the gates if they are closed and the avatar stands on a switch. -/
def tripSwitch (rules : Rules) (world : Grid) (ctx : Context) : Except Fault Outcome := do
  if ctx.gateOpen then pure (.performed world (ctx.spend rules.costs.sense) [])
  else if (← world.tile ctx.pos) = some .switch then
    pure (.performed world (({ ctx with gateOpen := true }).spend rules.costs.sense) [.gateOpened])
  else pure (.performed world (ctx.spend rules.costs.sense) [])

/-- Runs a collect block; it takes something only where the rules say so. -/
def collect (rules : Rules) (world : Grid) (ctx : Context) : Except Fault Outcome := do
  match rules.pickup with
  | .onEnter => pure (.performed world (ctx.spend rules.costs.collect) [])
  | .onCollect =>
    let (world, ctx, picked) ← ctx.pickUp world
    pure (.performed world (ctx.spend rules.costs.collect) picked)

/-- **The effect of one action.**  A repeat block that is itself repeated, and the blocks of the
stage variants, do nothing on a grid. -/
def perform (rules : Rules) (world : Grid) (ctx : Context) : Action → Except Fault Outcome
  | .moveUp => rules.move world ctx .up
  | .moveDown => rules.move world ctx .down
  | .moveLeft => rules.move world ctx .left
  | .moveRight => rules.move world ctx .right
  | .step => rules.move world ctx ctx.heading
  | .turnLeft => pure (rules.turn world ctx ctx.heading.turnLeft)
  | .turnRight => pure (rules.turn world ctx ctx.heading.turnRight)
  | .ifSwitch => rules.tripSwitch world ctx
  | .scan => pure (.performed world (ctx.spend rules.costs.sense) [.scanned])
  | .collect => rules.collect world ctx
  | .repeatNext _ | .forever | .ifEdge | .bounce | .color | .goLeft | .goRight | .incScore
  | .resetScore => pure (.performed world ctx [])

end Rules

/-- Whether a win rule holds in a world and a context. -/
def WinRule.holds (rule : WinRule) (world : Grid) (ctx : Context) : Except Fault Bool := do
  match rule with
  | .reachGoal required =>
    pure (decide ((← world.tile ctx.pos) = some .goal) &&
      decide (required.toNat ≤ ctx.collected.size))
  | .collect required => pure (decide (required.toNat ≤ ctx.collected.size))

end BlockCoding
