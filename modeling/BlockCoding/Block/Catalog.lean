import BlockCoding.Block.Action

/-!
# Block/Catalog — the closed vocabulary of blocks

A `Block` is one entry of the catalog.  `Block.catalog` lists them all in display order and
`Block.find?` looks an entry up by its id.
-/

namespace BlockCoding

/-- A catalog entry: the block a learner can place. -/
structure Block where
  id : String
  action : Action
  label : String
  category : Category
  icon : String
  deriving DecidableEq, Repr

namespace Block

/-- Every block there is. -/
def catalog : List Block :=
  [
    ⟨"b1", .moveRight, "MOVE RIGHT", .motion, "➡️"⟩,
    ⟨"b2", .moveLeft, "MOVE LEFT", .motion, "⬅️"⟩,
    ⟨"b3", .moveUp, "MOVE UP", .motion, "⬆️"⟩,
    ⟨"b4", .moveDown, "MOVE DOWN", .motion, "⬇️"⟩,
    ⟨"l1", .step, "STEP", .motion, "👣"⟩,
    ⟨"l2", .turnLeft, "TURN LEFT", .motion, "↩️"⟩,
    ⟨"l3", .turnRight, "TURN RIGHT", .motion, "↪️"⟩,
    ⟨"l4", .ifSwitch, "IF SWITCH", .logic, "🔑"⟩,
    ⟨"l5", .collect, "COLLECT", .logic, "⭐"⟩,
    ⟨"l6", .repeatNext 2, "REPEAT 2", .control, "🔁"⟩,
    ⟨"l7", .repeatNext 4, "REPEAT 4", .control, "🔁"⟩,
    ⟨"sb1", .step, "STEP", .motion, "🚀"⟩,
    ⟨"sb2", .turnRight, "TURN", .motion, "↪️"⟩,
    ⟨"sb3", .scan, "SCAN", .sensor, "📡"⟩,
    ⟨"sb4", .collect, "GEMS", .logic, "💎"⟩,
    ⟨"c1", .forever, "FOREVER", .control, "♾️"⟩,
    ⟨"c2", .ifEdge, "IF EDGE", .control, "🧱"⟩,
    ⟨"c3", .bounce, "BOUNCE", .motion, "🏓"⟩,
    ⟨"c4", .color, "COLOR", .looks, "🎨"⟩,
    ⟨"v1", .resetScore, "RESET SCORE", .variable, "🔄"⟩,
    ⟨"v2", .incScore, "SCORE +1", .variable, "➕"⟩,
    ⟨"v3", .goLeft, "GO LEFT", .motion, "⬅️"⟩,
    ⟨"v4", .goRight, "GO RIGHT", .motion, "➡️"⟩]

/-- The block with a given id. -/
def find? (id : String) : Option Block :=
  catalog.find? fun block => block.id == id

end Block

end BlockCoding
