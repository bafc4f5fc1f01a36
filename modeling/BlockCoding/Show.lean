import BlockCoding.Session.History
import BlockCoding.Store.Session

/-!
# Show — everything played once, without a screen

A show plays the solution of every maze level and one program for each other variant.  Each act is
a session of its own, fed frame by frame until its run has ended or the time is up; what it says is
a list of `Remark`s, and what its wins pay goes to one record.
-/

namespace BlockCoding.Show

/-! ## Remarks -/

/-- What a show says. -/
inductive Remark where
  | opening
  | level (level : MazeLevel)
  | unloadable (variant : Variant) (error : LevelError)
  /-- The variant offers no block for an action of the program. -/
  | noBlock (variant : Variant) (action : Action)
  | failed (variant : Variant) (events : Nat) (message : String)
  /-- The run has not failed: the state it is in. -/
  | stands (variant : Variant) (events : Nat) (state : SessionState)
  | closing (progress : Progress)
  deriving Repr

/-- The line for a remark. -/
def Remark.line : Remark → String
  | opening => "Block Quest (headless) starting..."
  | level l => "Level " ++ l.id ++ " (" ++ l.name ++ ")"
  | unloadable variant error => "Could not load " ++ variant.name ++ ": " ++ error.message
  | noBlock variant action => variant.name ++ " has no " ++ action.name ++ " block"
  | failed variant events message =>
    variant.name ++ ": FAIL after " ++ toString events ++ " events: " ++ message
  | stands variant events state =>
    variant.name ++ ": " ++ state.storedName ++ " after " ++ toString events ++ " events"
  | closing p =>
    "Progress: " ++ toString p.coins.toNat ++ " coins, " ++ toString p.score.toNat ++ " score, "
      ++ toString p.wins.toNat ++ " wins"

/-! ## Acts -/

/-- A program for a variant, with what is said before it is played. -/
structure Act where
  introduction : List Remark
  variant : Variant
  program : List Action
  deriving Repr

/-- A maze level with its solution. -/
def Act.ofLevel (level : MazeLevel) : Act :=
  ⟨[.level level], .maze level.id, level.solutionActions⟩

/-- The acts in playing order. -/
def acts : List Act :=
  MazeLevel.levels.map Act.ofLevel ++
    [⟨[], .ruins, Action.ofNames Ruins.solution⟩,
      ⟨[], .miner, [.scan, .step, .collect, .step, .collect, .step, .collect]⟩,
      ⟨[], .flight, [.forever, .ifEdge, .bounce, .color]⟩,
      ⟨[], .orchard, [.incScore, .goRight]⟩]

/-! ## Playing -/

/-- The seconds between two frames. -/
def frameTime : Float32 := 1 / 60

/-- The seconds after which a run is given up. -/
def timeLimit : Float32 := 120

/-- More frames than the time limit leaves room for. -/
def frameLimit : Nat := 8000

/-- Feeds at most `n` frames to a session, until its run has ended or the time is up. -/
def playOut : Nat → Float32 → Session → Except Fault Session
  | 0, _, s => pure s
  | n + 1, elapsed, s =>
    if s.state.isBusy && elapsed < timeLimit then do
      playOut n (elapsed + frameTime) (← s.perform? (.update frameTime))
    else pure s

/-- Places the block for an action, or remarks that there is none. -/
def placeBlock (s : Session) (action : Action) : List Remark × Session :=
  match s.variant.blockFor? action with
  | some block => ([], (s.append block.id).2)
  | none => ([.noBlock s.variant action], s)

/-- Places the blocks for a list of actions. -/
def placeBlocks (s : Session) : List Action → List Remark × Session
  | [] => ([], s)
  | action :: actions =>
    let (remark, s) := placeBlock s action
    let (remarks, s) := placeBlocks s actions
    (remark ++ remarks, s)

/-- What is said about a session whose run has been played out. -/
def outcome (s : Session) : Remark :=
  let events := s.play.events.length
  match s.failMessage? with
  | some message => .failed s.variant events message
  | none => .stands s.variant events s.state

/-- Plays one act: what is said, and what the session calls back.  A program that does not start
is passed over in silence. -/
def playAct (settings : Settings) (seed : Seed) (act : Act) :
    Except Fault (List Remark × List Callback) := do
  match Session.create act.variant settings seed with
  | .error error => pure (act.introduction ++ [.unloadable act.variant error], [])
  | .ok session =>
    let (remarks, session) := placeBlocks session act.program
    let said := act.introduction ++ remarks
    match session.run with
    | (false, session) => pure (said, session.play.callbacks)
    | (true, session) =>
      let session ← playOut frameLimit 0 session
      pure (said ++ [outcome session], session.play.callbacks)

/-- Plays acts one after the other; each one has a seed in case that the settings have none. -/
def playActs (settings : Settings) :
    List (Act × UInt64) → Progress → Except Fault (List Remark × Progress)
  | [], progress => pure ([], progress)
  | (act, drawn) :: rest, progress => do
    let (said, calls) ← playAct settings (settings.resolveSeed drawn) act
    let (later, progress) ← playActs settings rest (← calls.foldlM Progress.receive? progress)
    pure (said ++ later, progress)

/-- **Plays the whole show** and returns its lines and the record after it. -/
def perform (settings : Settings) (drawn : List UInt64) (progress : Progress) :
    Except Fault (List String × Progress) := do
  let (said, progress) ← playActs settings (acts.zip drawn) progress
  pure (([.opening] ++ said ++ [.closing progress] : List Remark).map Remark.line, progress)

end BlockCoding.Show
