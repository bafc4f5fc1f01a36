/-!
# Block/Action — the operations a block can ask for

An `Action` is what one block does when it is executed.  `Action.name` is the word that level
solutions use for it, and `Action.ofName?` reads those words back; the two agree on every action
that a catalog block performs.
-/

namespace BlockCoding

/-- The operation a block asks the interpreter to perform. -/
inductive Action where
  | moveUp
  | moveDown
  | moveLeft
  | moveRight
  /-- One cell forward along the current heading. -/
  | step
  | turnLeft
  | turnRight
  /-- Opens the gates when executed on a switch tile. -/
  | ifSwitch
  | collect
  | scan
  /-- Runs the block after it `times` times. -/
  | repeatNext (times : UInt8)
  | forever
  | ifEdge
  | bounce
  | color
  | goLeft
  | goRight
  | incScore
  | resetScore
  deriving DecidableEq, Repr

/-- The palette group a block is shown in. -/
inductive Category where
  | motion
  | control
  | sensor
  | logic
  | looks
  | variable
  deriving DecidableEq, Repr

namespace Action

/-- The word for an action.  Only the two repeat counts that the catalog offers have words of
their own. -/
def name : Action → String
  | moveUp => "MOVE_UP"
  | moveDown => "MOVE_DOWN"
  | moveLeft => "MOVE_LEFT"
  | moveRight => "MOVE_RIGHT"
  | step => "STEP"
  | turnLeft => "TURN_L"
  | turnRight => "TURN_R"
  | ifSwitch => "IF_SWITCH"
  | collect => "COLLECT"
  | scan => "SCAN"
  | repeatNext n => if n = 2 then "REPEAT_2" else if n = 4 then "REPEAT_4" else "REPEAT_N"
  | forever => "FOREVER"
  | ifEdge => "IF_EDGE"
  | bounce => "BOUNCE"
  | color => "COLOR"
  | goLeft => "GO_LEFT"
  | goRight => "GO_RIGHT"
  | incScore => "INC_SCORE"
  | resetScore => "SET_SCORE_0"

/-- Every action that a word stands for. -/
def named : List Action :=
  [moveUp, moveDown, moveLeft, moveRight, step, turnLeft, turnRight, ifSwitch, collect, scan,
    repeatNext 2, repeatNext 4, forever, ifEdge, bounce, color, goLeft, goRight, incScore,
    resetScore]

/-- The action a word stands for. -/
def ofName? (word : String) : Option Action :=
  named.find? fun action => action.name == word

/-- The actions of a list of words; words that stand for nothing are skipped. -/
def ofNames (words : List String) : List Action :=
  words.filterMap ofName?

end Action

end BlockCoding
