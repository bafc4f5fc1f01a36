import BlockCoding.Block.Catalog

/-!
# Block/Variant — the game variants and the blocks each one offers

A variant's palette lists catalog ids.  Whether a variant *supports* an action is decided by the
palette's actions, not by its ids: two blocks with one action are both supported.
-/

namespace BlockCoding

/-- The games that are played with blocks. -/
inductive Variant where
  /-- Moves in four fixed directions through a literal level. -/
  | maze (levelId : String)
  /-- A heading, a switch, a gate and crystals. -/
  | ruins
  /-- A heading, random gems and random asteroids. -/
  | miner
  /-- A flight around storms, collecting stars. -/
  | flight
  /-- A basket under falling fruit. -/
  | orchard
  deriving DecidableEq, Repr

namespace Variant

/-- The catalog ids in the toolbox of a variant, in display order. -/
def paletteIds : Variant → List String
  | maze _ => ["b1", "b2", "b3", "b4"]
  | ruins => ["l1", "l2", "l3", "l4", "l5", "l6", "l7"]
  | miner => ["sb1", "sb2", "sb3", "sb4"]
  | flight => ["c1", "c2", "c3", "c4", "b3", "b1"]
  | orchard => ["v1", "v2", "v3", "v4"]

/-- The blocks in the toolbox of a variant. -/
def palette (v : Variant) : List Block :=
  v.paletteIds.filterMap Block.find?

/-- The palette block that performs `action`. -/
def blockFor? (v : Variant) (action : Action) : Option Block :=
  v.palette.find? fun block => block.action == action

/-- Whether some palette block performs `action`. -/
def supports (v : Variant) (action : Action) : Bool :=
  (v.blockFor? action).isSome

/-- Stage variants advance every frame; grid variants advance block by block. -/
def isContinuous : Variant → Bool
  | flight | orchard => true
  | _ => false

/-- The short name of a variant. -/
def name : Variant → String
  | maze _ => "maze"
  | ruins => "ruins"
  | miner => "miner"
  | flight => "flight"
  | orchard => "catch"

end Variant

end BlockCoding
