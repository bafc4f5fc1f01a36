import BlockCoding.Run.Basic

/-!
# Run/Replay — a run told without a cursor

`replay` plays the expansion of a program from left to right: announce the block, perform the
action, stop at the first verdict.  It knows neither cursor nor pending repeat, and is what a run to
the end is held against.
-/

namespace BlockCoding

/-- All that is left of a run when it has ended. -/
structure Transcript where
  verdict : Verdict
  events : List Event
  trace : List Cell
  context : Context
  world : Grid
  deriving Repr

namespace Transcript

/-- A run that ends here: the verdict is the last event. -/
def ending (verdict : Verdict) (events : List Event) (trace : List Cell) (context : Context)
    (world : Grid) : Transcript :=
  ⟨verdict, events ++ [.finished verdict], trace, context, world⟩

/-- The same transcript with further events in front. -/
def after (events : List Event) (t : Transcript) : Transcript :=
  { t with events := events ++ t.events }

end Transcript

/-- Plays actions, each with the position of its block, from a world, a context and a trace. -/
def replayFrom (rules : Rules) (world : Grid) (context : Context) (trace : List Cell) :
    List (Nat × Action) → Except Fault Transcript
  | [] => pure (.ending (.fail .incomplete) [] trace context world)
  | (index, action) :: rest => do
    match ← rules.perform world context action with
    | .rejected cause => pure (.ending (.fail cause) [.executing index] trace context world)
    | .performed world context raised =>
      let trace := trace ++ [context.pos]
      let events := .executing index :: raised
      if ← rules.win.holds world context then pure (.ending .win events trace context world)
      else if context.energy = 0 then
        pure (.ending (.fail .outOfEnergy) events trace context world)
      else return (← replayFrom rules world context trace rest).after events

/-- **Plays what a program comes to**, from the start of a grid. -/
def replay (world : Grid) (rules : Rules) (program : List Action) : Except Fault Transcript :=
  replayFrom rules world (.initial world rules) [world.start] (expansion program)

end BlockCoding
