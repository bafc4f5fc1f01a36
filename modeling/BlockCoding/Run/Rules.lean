/-!
# Run/Rules — the rule sets of the grid variants

What each action costs, how collectibles are picked up, when a run is won and what a win pays.
-/

namespace BlockCoding

/-- The energy each kind of action costs. -/
structure Costs where
  step : UInt32
  turn : UInt32
  /-- For switching and scanning. -/
  sense : UInt32
  collect : UInt32
  deriving DecidableEq, Repr

/-- How collectibles are picked up. -/
inductive Pickup where
  /-- Entering the tile collects it. -/
  | onEnter
  /-- Only a collect block takes the collectible underfoot. -/
  | onCollect
  deriving DecidableEq, Repr

/-- When a run is won. -/
inductive WinRule where
  /-- Standing on a goal with at least `required` collectibles. -/
  | reachGoal (required : UInt64)
  /-- Holding at least `required` collectibles, anywhere. -/
  | collect (required : UInt64)
  deriving DecidableEq, Repr

/-- What a win pays. -/
inductive Reward where
  /-- One unit for each collectible picked up in the run. -/
  | collected
  | fixed (amount : UInt32)
  deriving DecidableEq, Repr

/-- The rule set of a grid variant. -/
structure Rules where
  costs : Costs
  startEnergy : UInt32
  pickup : Pickup
  win : WinRule
  reward : Reward
  /-- Whether a win is celebrated before it is declared. -/
  celebrate : Bool
  deriving DecidableEq, Repr

namespace Rules

/-- Nothing costs energy, and reaching the goal is enough. -/
def maze : Rules :=
  { costs := ⟨0, 0, 0, 0⟩
    startEnergy := 100
    pickup := .onEnter
    win := .reachGoal 0
    reward := .collected
    celebrate := true }

/-- The goal counts only with all three crystals in hand. -/
def ruins : Rules :=
  { costs := ⟨4, 2, 5, 5⟩
    startEnergy := 100
    pickup := .onCollect
    win := .reachGoal 3
    reward := .fixed 100
    celebrate := false }

/-- Three gems win, wherever the ship is. -/
def miner : Rules :=
  { costs := ⟨8, 3, 5, 5⟩
    startEnergy := 100
    pickup := .onCollect
    win := .collect 3
    reward := .fixed 50
    celebrate := false }

end Rules

end BlockCoding
