/-!
# Fault — what breaks a computation off

Positions, counters and ids are kept in words, and tiles in a list that may be too short.  What may
go wrong with them is an `Except Fault`.  Where a definition has a namesake with a question mark,
the namesake is the one that runs: it gives the same result, or a fault if a number in it does not
fit into its word (`fitting_eq_ok_iff`).
-/

namespace BlockCoding

/-- Why a computation breaks off. -/
inductive Fault where
  /-- A number does not fit into its word. -/
  | overflow
  /-- No tile is stored for a cell inside the bounds. -/
  | missingTile
  /-- There are tiles but no columns to lay them out in. -/
  | noColumns
  /-- The product of the dimensions is below zero. -/
  | negativeArea
  deriving DecidableEq, Repr

/-- A result whose numbers have to fit into their words. -/
def fitting {α : Type} (fits : α → Bool) (result : α) : Except Fault α :=
  if fits result then .ok result else .error .overflow

/-- **What fits is the result itself.** -/
theorem fitting_eq_ok_iff {α : Type} {fits : α → Bool} {a b : α} :
    fitting fits a = .ok b ↔ a = b ∧ fits b = true := by
  rw [fitting]
  split
  · next h =>
    exact ⟨fun heq => ⟨Except.ok.inj heq, Except.ok.inj heq ▸ h⟩, fun heq => by rw [heq.1]⟩
  · next h => exact ⟨nofun, fun heq => absurd (heq.1 ▸ heq.2) h⟩

theorem fitting_of_not {α : Type} {fits : α → Bool} {a : α} (h : fits a = false) :
    fitting fits a = .error .overflow := by simp [fitting, h]

/-- What does not fit is an overflow, and no other fault. -/
theorem fitting_ok_or_overflow {α : Type} (fits : α → Bool) (a : α) :
    fitting fits a = .ok a ∨ fitting fits a = .error .overflow := by
  cases h : fits a with
  | true => exact .inl (fitting_eq_ok_iff.mpr ⟨rfl, h⟩)
  | false => exact .inr (fitting_of_not h)

end BlockCoding
