import BlockCoding.Grid.Basic

/-!
# Level/Ruins — the ruins

An eight by eight grid of walls with a winding path from the lower left to the goal at the upper
right, a switch, a gate behind it, and three crystals.
-/

namespace BlockCoding.Ruins

/-- The cells of the path, from the start to the goal. -/
def path : List Cell :=
  [⟨0, 7⟩, ⟨1, 7⟩, ⟨2, 7⟩, ⟨2, 6⟩, ⟨2, 5⟩, ⟨3, 5⟩, ⟨4, 5⟩, ⟨4, 4⟩, ⟨4, 3⟩, ⟨5, 3⟩, ⟨6, 3⟩, ⟨7, 3⟩,
    ⟨7, 2⟩, ⟨7, 1⟩, ⟨7, 0⟩]

/-- What lies on the path. -/
def features : List (Cell × Tile) :=
  [(⟨3, 5⟩, .switch), (⟨7, 3⟩, .gate), (⟨1, 7⟩, .collectible), (⟨4, 5⟩, .collectible),
    (⟨7, 1⟩, .collectible), (⟨7, 0⟩, .goal)]

/-- The grid of the ruins. -/
def grid : Grid :=
  let walls := Grid.filled 8 8 .wall ⟨0, 7⟩ .right
  let carved := path.foldl (fun g c => g.setTile c .path) walls
  features.foldl (fun g (c, t) => g.setTile c t) carved

/-- A winning program, in action words. -/
def solution : List String :=
  ["STEP", "COLLECT", "STEP", "TURN_L", "STEP", "STEP", "TURN_R", "STEP", "IF_SWITCH", "STEP",
    "COLLECT", "TURN_L", "STEP", "STEP", "TURN_R", "REPEAT_2", "STEP", "STEP", "TURN_L", "STEP",
    "STEP", "COLLECT", "STEP"]

end BlockCoding.Ruins
