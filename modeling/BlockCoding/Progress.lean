import BlockCoding.Fault

/-!
# Progress — what the wins of a learner add up to

A session only ever calls back: once for each win, and then at most once with the units earned.
`Progress.receive` adds a callback to a record, with totals that start over at the end of their
words; `Progress.receive?` keeps a record, and there such a total is a fault.
-/

namespace BlockCoding

/-- What a session reports to whoever keeps the score. -/
inductive Callback where
  | win
  | collect (amount : UInt32)
  deriving DecidableEq, Repr

/-- Accumulated coins, score and wins. -/
structure Progress where
  coins : UInt64
  score : UInt64
  wins : UInt32
  deriving DecidableEq, Repr

namespace Progress

/-- The record of a learner who has not won yet. -/
def fresh : Progress := ⟨0, 0, 0⟩

/-- The score of one unit. -/
def scorePerUnit : UInt64 := 10

/-- Adds a callback to the record. -/
def receive (p : Progress) : Callback → Progress
  | .win => { p with wins := p.wins + 1 }
  | .collect amount =>
    { p with
      coins := p.coins + amount.toUInt64
      score := p.score + amount.toUInt64 * scorePerUnit }

/-- Adds a callback to the record; a total that does not fit into its word is a fault. -/
def receive? (p : Progress) : Callback → Except Fault Progress
  | .win => fitting (fun q => q.wins.toNat == p.wins.toNat + 1) (p.receive .win)
  | .collect amount =>
    fitting
      (fun q => q.coins.toNat == p.coins.toNat + amount.toNat &&
        q.score.toNat == p.score.toNat + amount.toNat * scorePerUnit.toNat)
      (p.receive (.collect amount))

end Progress

end BlockCoding
