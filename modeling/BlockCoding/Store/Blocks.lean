import BlockCoding.Block.Variant
import BlockCoding.Json.Basic

/-!
# Store/Blocks — stored forms of actions, categories and variants

A case that carries nothing is stored as its name, any other one as an object with the name as its
only key.
-/

namespace BlockCoding

namespace Action

/-- The actions that carry nothing. -/
def bare : List Action :=
  [moveUp, moveDown, moveLeft, moveRight, step, turnLeft, turnRight, ifSwitch, collect, scan,
    forever, ifEdge, bounce, color, goLeft, goRight, incScore, resetScore]

/-- The name under which an action is stored. -/
def storedName : Action → String
  | moveUp => "MoveUp"
  | moveDown => "MoveDown"
  | moveLeft => "MoveLeft"
  | moveRight => "MoveRight"
  | step => "Step"
  | turnLeft => "TurnLeft"
  | turnRight => "TurnRight"
  | ifSwitch => "IfSwitch"
  | collect => "Collect"
  | scan => "Scan"
  | repeatNext _ => "Repeat"
  | forever => "Forever"
  | ifEdge => "IfEdge"
  | bounce => "Bounce"
  | color => "Color"
  | goLeft => "GoLeft"
  | goRight => "GoRight"
  | incScore => "IncScore"
  | resetScore => "ResetScore"

/-- An action is stored as its name; a repeat block carries its count. -/
def toJson : Action → Json
  | repeatNext n => .tagged "Repeat" (.ofNat n.toNat)
  | action => .ofString action.storedName

/-- Reads an action; the count of a repeat block has 8 bits. -/
def ofJson? (j : Json) : Option Action :=
  match j.case? with
  | some ("Repeat", some payload) => payload.uint8?.map repeatNext
  | _ => j.bareCase? bare storedName

end Action

namespace Category

/-- All categories, for reading them by name. -/
def all : List Category := [motion, control, sensor, logic, looks, .variable]

/-- The name under which a category is stored. -/
def storedName : Category → String
  | motion => "Motion"
  | control => "Control"
  | sensor => "Sensor"
  | logic => "Logic"
  | looks => "Looks"
  | .variable => "Variable"

/-- A category is stored as its name. -/
def toJson (c : Category) : Json := .ofString c.storedName

/-- Reads a category by its name. -/
def ofJson? (j : Json) : Option Category := j.bareCase? all storedName

end Category

namespace Variant

/-- The variants that carry nothing. -/
def bare : List Variant := [ruins, miner, flight, orchard]

/-- The name under which a variant is stored. -/
def storedName : Variant → String
  | maze _ => "Maze"
  | ruins => "Ruins"
  | miner => "Miner"
  | flight => "Flight"
  | orchard => "Catch"

/-- A variant is stored as its name; a maze carries the id of its level. -/
def toJson : Variant → Json
  | maze levelId => .tagged "Maze" (.record [("level_id", .ofString levelId)])
  | variant => .ofString variant.storedName

/-- Reads a variant; a maze may name any level, known or not. -/
def ofJson? (j : Json) : Option Variant :=
  match j.case? with
  | some ("Maze", some payload) => do
    let [levelId] ← payload.slots? ["level_id"] | none
    return maze (← levelId.required Json.string?)
  | _ => j.bareCase? bare storedName

end Variant

end BlockCoding
