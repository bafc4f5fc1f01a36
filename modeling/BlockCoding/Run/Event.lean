import BlockCoding.Grid.Basic

/-!
# Run/Event — verdicts and the events that a run raises

A run ends in a `Verdict`.  On the way it raises an `Event` for each thing a presentation may want
to show; events have no effect on the run.
-/

namespace BlockCoding

/-- Why a run failed. -/
inductive FailCause where
  /-- The target of a move is outside the grid. -/
  | offGrid (cell : Cell)
  /-- The target of a move is a wall or a closed gate. -/
  | blocked (cell : Cell) (tile : Tile)
  | outOfEnergy
  /-- The program ran out before the run was won. -/
  | incomplete
  /-- The speed fell below the stall threshold. -/
  | stalled
  /-- The avatar left the stage band without bouncing. -/
  | hitEdge
  /-- The avatar touched the hazard of this index. -/
  | hazard (index : UInt64)
  deriving DecidableEq, Repr

/-- The sentence shown on the failure screen. -/
def FailCause.message : FailCause → String
  | offGrid _ => "Oops! You flew off the map!"
  | blocked cell .gate => "The gate at " ++ cell.text ++ " is still locked!"
  | blocked cell _ => "Oops! You crashed into a tree at " ++ cell.text ++ "!"
  | outOfEnergy => "Out of energy!"
  | incomplete => "Mission incomplete!"
  | stalled => "Ran out of speed!"
  | hitEdge => "Flew out of bounds!"
  | hazard _ => "Zapped by a storm cloud!"

/-- The terminal result of a run. -/
inductive Verdict where
  | win
  | fail (cause : FailCause)
  deriving DecidableEq, Repr

/-- The failure sentence of a verdict. -/
def Verdict.failMessage? : Verdict → Option String
  | win => none
  | fail cause => some cause.message

/-- What a presentation is told. -/
inductive Event where
  /-- The block at this position of the program started executing. -/
  | executing (index : Nat)
  | moved (target : Cell)
  | turned (heading : Heading)
  | collected (cell : Cell) (total : Nat)
  | gateOpened
  | scanned
  | bounced (tintHue : Option Float32)
  | starCaught (total : Nat)
  | fruitCaught (score : Nat)
  | layoutRerolled
  | celebrating
  | finished (verdict : Verdict)
  deriving Repr

end BlockCoding
