import BlockCoding.Run.Expansion
import BlockCoding.Run.Perform

/-!
# Run/Basic — the step-by-step interpreter of the grid variants

`GridRun.step` executes one action: it finds the next one, performs it, and then asks in this order
whether the run is won, whether the energy is gone, and whether the program is exhausted.
`GridRun.runToEnd` steps until there is a verdict.
-/

namespace BlockCoding

/-- A grid run under way, with a world of its own. -/
structure GridRun where
  world : Grid
  rules : Rules
  context : Context
  program : List Action
  cursor : Nat
  pending : Option PendingRepeat
  verdict : Option Verdict
  /-- The position of the block being executed. -/
  executing : Option Nat
  /-- The position after each step, the start first. -/
  trace : List Cell
  deriving DecidableEq, Repr

namespace GridRun

/-- A run at its start. -/
def start (world : Grid) (rules : Rules) (program : List Action) : GridRun :=
  { world, rules, program
    context := .initial world rules
    cursor := 0
    pending := none
    verdict := none
    executing := none
    trace := [world.start] }

/-- **The actions still to come**, each with the position of its block: the copies a pending repeat
is due, then what the rest of the program comes to. -/
def remaining (r : GridRun) : List (Nat × Action) :=
  match r.pending with
  | some p =>
    List.replicate p.remaining.toNat (r.cursor, p.body) ++
      expansionFrom (r.cursor + 2) (r.program.drop (r.cursor + 2))
  | none => expansionFrom r.cursor (r.program.drop r.cursor)

/-- Takes the next action, if there is one, and moves on behind it. -/
def fetch (r : GridRun) : Option Action × GridRun :=
  match r.pending with
  | some p =>
    let left := p.remaining - 1
    (some p.body,
      if left = 0 then { r with pending := none, cursor := r.cursor + 2 }
      else { r with pending := some { p with remaining := left } })
  | none =>
    let found := fetchFrom r.cursor r.executing (r.program.drop r.cursor)
    (found.action,
      { r with cursor := found.cursor, pending := found.pending, executing := found.executing })

/-- The action that the next step is expected to execute. -/
def peek? (r : GridRun) : Option Action :=
  if r.verdict.isSome then none
  else match r.pending with
    | some p => some p.body
    | none => peekFrom (r.program.drop r.cursor)

/-- Ends the run; the verdict is the last event. -/
def finish (r : GridRun) (verdict : Verdict) (events : List Event) : List Event × GridRun :=
  (events ++ [.finished verdict], { r with verdict := some verdict })

/-- The verdict due after an action has taken effect, if any. -/
def verdictDue (r : GridRun) : Except Fault (Option Verdict) := do
  if ← r.rules.win.holds r.world r.context then pure (some .win)
  else if r.context.energy = 0 then pure (some (.fail .outOfEnergy))
  else if r.peek?.isNone then pure (some (.fail .incomplete))
  else pure none

/-- **Executes one action** and returns the events it raises.  A run with a verdict stays as it
is. -/
def step (r : GridRun) : Except Fault (List Event × GridRun) := do
  if r.verdict.isSome then return ([], r)
  match r.fetch with
  | (none, r) => return r.finish (.fail .incomplete) []
  | (some action, r) =>
    let started := r.executing.toList.map Event.executing
    match ← r.rules.perform r.world r.context action with
    | .rejected cause => return r.finish (.fail cause) started
    | .performed world context raised =>
      let r := { r with world, context, trace := r.trace ++ [context.pos] }
      match ← r.verdictDue with
      | some verdict => return r.finish verdict (started ++ raised)
      | none => return (started ++ raised, r)

/-- Steps until there is a verdict, at most `n` times. -/
def steps : Nat → GridRun → Except Fault (List Event × GridRun)
  | 0, r => pure ([], r)
  | n + 1, r => do
    let (events, r) ← r.step
    if r.verdict.isSome then return (events, r)
    let (later, r) ← steps n r
    return (events ++ later, r)

/-- Steps until there is a verdict: one step for each action still to come and one to find that
there is none are enough. -/
def runToEnd (r : GridRun) : Except Fault (List Event × GridRun) :=
  steps (r.remaining.length + 1) r

end GridRun

end BlockCoding
