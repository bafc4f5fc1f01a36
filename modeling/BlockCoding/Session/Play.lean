import BlockCoding.Level.Maze
import BlockCoding.Level.Mine
import BlockCoding.Level.Ruins
import BlockCoding.Progress
import BlockCoding.Run.Basic
import BlockCoding.Stage.Flight
import BlockCoding.Stage.Orchard

/-!
# Session/Play — the part of a session that knows no time

A `Play` is where the current run stands: the state, the verdict, the run itself, the random
source, the events raised and the callbacks made.  `Play.step` takes it one step further and says
in a `Pace` what the clock should make of it; it never sees a duration.
-/

namespace BlockCoding

/-- The life cycle of a session. -/
inductive SessionState where
  | idle
  | running
  /-- The goal is reached; the summary is shown before the win is declared. -/
  | celebrating
  | win
  | fail
  deriving DecidableEq, Repr

namespace SessionState

/-- Whether a run is under way. -/
def isBusy : SessionState → Bool
  | running | celebrating => true
  | _ => false

/-- Whether a run has ended. -/
def isTerminal : SessionState → Bool
  | win | fail => true
  | _ => false

end SessionState

/-! ## Worlds and runs -/

/-- The world that a run starts from. -/
inductive Template where
  | grid (world : Grid) (rules : Rules)
  | sky (layout : Sky)
  | orchard
  deriving Repr

namespace Template

/-- Makes the world of a variant; the random ones are drawn from the source. -/
def roll (variant : Variant) (source : Pcg) : Except LevelError (Template × Pcg) :=
  match variant with
  | .maze levelId => do
    let world ← (MazeLevel.ofId levelId).build
    pure (.grid world .maze, source)
  | .ruins => pure (.grid Ruins.grid .ruins, source)
  | .miner =>
    let (world, source) := Mine.generate source
    pure (.grid world .miner, source)
  | .flight =>
    let (layout, source) := Sky.roll Flight.startPos source
    pure (.sky layout, source)
  | .orchard => pure (.orchard, source)

/-- Whether a win in this world is celebrated. -/
def celebrates : Template → Bool
  | grid _ rules => rules.celebrate
  | _ => false

end Template

/-- A run under way. -/
inductive ActiveRun where
  | grid (run : GridRun)
  | flight (state : Flight)
  | orchard (state : Orchard)
  deriving Repr

namespace ActiveRun

/-- The run of a program in a world. -/
def launch (template : Template) (program : Program) : ActiveRun :=
  match template with
  | .grid world rules => .grid (.start world rules program.actions)
  | .sky layout => .flight (.start layout (.ofProgram program))
  | .orchard => .orchard (.start (.ofProgram program))

/-- Advances a run by one step or frame.  A grid run is asked only for as long as it has no
verdict. -/
def advance (run : ActiveRun) (source : Pcg) : Except Fault (Tick ActiveRun Pcg) :=
  match run with
  | grid r => do
    let (events, r) ← r.step
    pure ⟨r.verdict, events, .grid r, source⟩
  | flight f =>
    let t := f.tick source
    pure ⟨t.verdict, t.events, .flight t.state, t.source⟩
  | orchard o =>
    let t := o.tick source
    pure ⟨t.verdict, t.events, .orchard t.state, t.source⟩

/-- Whether the counters of a run fit into their words; a grid run has none. -/
def fits : ActiveRun → Bool
  | grid _ => true
  | flight f => f.fits
  | orchard o => o.fits

/-- Whether the next step is a scan. -/
def isScanning : ActiveRun → Bool
  | grid r => r.peek? == some .scan
  | _ => false

/-- The announcement of a verdict that a run leaves to the session: grid runs announce their own. -/
def announcement (verdict : Verdict) : ActiveRun → List Event
  | grid _ => []
  | _ => [.finished verdict]

/-- What a win on a stage pays. -/
def stageReward : UInt32 := 50

/-- What a win pays. -/
def reward : ActiveRun → UInt32
  | grid r =>
    match r.rules.reward with
    | .collected => UInt32.ofNat r.context.collected.size
    | .fixed amount => amount
  | _ => stageReward

end ActiveRun

/-! ## Steps -/

/-- What the clock should make of a step. -/
inductive Pace where
  /-- The next step is due after the usual interval. -/
  | steady
  /-- A scan takes a while longer. -/
  | scan
  /-- The celebration is held for some time. -/
  | celebration
  /-- There is nothing more to do. -/
  | halt
  deriving DecidableEq, Repr

/-- Where the current run stands. -/
structure Play where
  state : SessionState
  verdict : Option Verdict
  run : Option ActiveRun
  /-- Whether the current run has been paid for. -/
  rewarded : Bool
  source : Pcg
  /-- The events that have not been drained. -/
  events : List Event
  /-- Every callback made, in order. -/
  callbacks : List Callback
  deriving Repr

namespace Play

/-- Nothing has been run. -/
def idle (source : Pcg) : Play := ⟨.idle, none, none, false, source, [], []⟩

/-- Gives up the current run. -/
def reset (p : Play) : Play :=
  { p with state := .idle, verdict := none, run := none, rewarded := false }

/-- Starts a run. -/
def launch (p : Play) (run : ActiveRun) : Play :=
  { p with state := .running, verdict := none, run := some run, rewarded := false }

/-- The callbacks of a win: the win itself, then what it pays, if anything. -/
def payout (reward : UInt32) : List Callback :=
  .win :: if 0 < reward then [.collect reward] else []

/-- Declares the win; a run is paid for once. -/
def enterWin (p : Play) : Play :=
  if p.rewarded then { p with state := .win }
  else
    { p with
      state := .win
      rewarded := true
      callbacks := p.callbacks ++ payout ((p.run.map ActiveRun.reward).getD 0) }

/-- Draws the consequences of a verdict of `run`. -/
def conclude (p : Play) (celebrates : Bool) (run : ActiveRun) (verdict : Verdict) : Play × Pace :=
  let p := { p with verdict := some verdict, events := p.events ++ run.announcement verdict }
  match verdict with
  | .win =>
    if celebrates then
      ({ p with state := .celebrating, events := p.events ++ [.celebrating] }, .celebration)
    else (p.enterWin, .halt)
  | .fail _ => ({ p with state := .fail }, .halt)

/-- **One step of the current run**, or the end of its celebration. -/
def step (celebrates : Bool) (p : Play) : Except Fault (Play × Pace) :=
  match p.state, p.run with
  | .running, some run => do
    let t ← run.advance p.source
    let p := { p with run := some t.state, source := t.source, events := p.events ++ t.events }
    match t.verdict with
    | none => pure (p, if run.isScanning then .scan else .steady)
    | some verdict => pure (p.conclude celebrates t.state verdict)
  | .celebrating, _ => pure (p.enterWin, .halt)
  | _, _ => pure (p, .halt)

end Play

end BlockCoding
