import BlockCoding.Proofs.Stage.Selection
import BlockCoding.Stage.Point

/-!
# Proofs/Stage/Spacing — points placed one after the other keep their distance

What a placement says of itself is right: `Keeps` compares it with all points that were taken
before it.  One point is placed so (`keeps_placeOne`), and since what is placed is taken before the
next point, so is every one of many (`place_keeps`).
-/

namespace BlockCoding.Spread

variable {α σ : Type}

/-- **A placement keeps its distance from the points taken if it is marked so, and is too near to
one of them if it is not.**  Distances that are no numbers do not count. -/
structure Keeps (distance : α → α → Float32) (minDistance : Float32) (taken : List α)
    (p : Placement α) : Prop where
  apart : p.spaced = true →
    ∀ other ∈ taken, (distance other p.point).isNaN = false → minDistance ≤ distance other p.point
  crowded : p.spaced = false → ∃ other ∈ taken, distance other p.point < minDistance

/-- Whether a point is far enough from the nearest one decides it for all of them. -/
theorem keeps_of_clearance (distance : α → α → Float32) {minDistance : Float32}
    (hmin : minDistance.isNaN = false) (taken : List α) (point : α) :
    Keeps distance minDistance taken
      ⟨point, decide (minDistance ≤ clearance distance taken point)⟩ := by
  have hnearest := nearest_clearance distance taken point
  constructor
  · intro hspaced other hother hnumber
    exact Single.le_trans (of_decide_eq_true hspaced) (hnearest.le other hother hnumber)
  · intro hspaced
    have hshort := Single.lt_of_not_le hmin hnearest.isNaN_eq (of_decide_eq_false hspaced)
    rcases hnearest.attained with hfree | ⟨other, hother, heq⟩
    · rw [hfree] at hshort
      exact absurd (Single.le_infinity hmin) (Single.not_le_of_lt hshort)
    · exact ⟨other, hother, heq ▸ hshort⟩

/-! ## One after the other -/

/-- **Every placement is in a relation to the points taken before it**, where each one that is
placed is taken. -/
inductive OneByOne (R : List α → Placement α → Prop) : List α → List (Placement α) → Prop where
  | nil {taken : List α} : OneByOne R taken []
  | cons {taken : List α} {p : Placement α} {placed : List (Placement α)} (first : R taken p)
      (others : OneByOne R (taken ++ [p.point]) placed) : OneByOne R taken (p :: placed)

namespace OneByOne

variable {R S : List α → Placement α → Prop} {taken : List α} {placed : List (Placement α)}

theorem imp (himp : ∀ taken p, R taken p → S taken p) (h : OneByOne R taken placed) :
    OneByOne S taken placed := by
  induction h with
  | nil => exact .nil
  | cons first _ ih => exact .cons (himp _ _ first) ih

/-- Placements may go on behind others. -/
theorem append {more : List (Placement α)} (h : OneByOne R taken placed)
    (hmore : OneByOne R (taken ++ placed.map Placement.point) more) :
    OneByOne R taken (placed ++ more) := by
  induction h with
  | nil => simpa using hmore
  | cons first _ ih => exact .cons first (ih (by simpa using hmore))

/-- A placement anywhere among the others is in relation to the points before it. -/
theorem of_split (h : OneByOne R taken placed) {before after : List (Placement α)}
    {p : Placement α} (split : placed = before ++ p :: after) :
    R (taken ++ before.map Placement.point) p := by
  induction h generalizing before with
  | nil => simp at split
  | @cons taken q placed first others ih =>
    cases before with
    | nil =>
      obtain ⟨rfl, -⟩ := List.cons.inj split
      simpa using first
    | cons r before =>
      obtain ⟨rfl, hrest⟩ := List.cons.inj split
      simpa using ih hrest

end OneByOne

section Place

variable (distance : α → α → Float32) (spacing : Spacing) (sample : σ → α × σ)

theorem keeps_placeOne (hmin : spacing.minDistance.isNaN = false) (taken : List α) (source : σ) :
    Keeps distance spacing.minDistance taken (placeOne distance spacing sample taken source).1 :=
  keeps_of_clearance distance hmin taken _

/-- **Placing many points is placing one after the other**: their number is the one asked for, they
are taken in their order, and whatever holds of one placement holds of each. -/
theorem place_oneByOne {R : List α → Placement α → Prop}
    (hone : ∀ taken source, R taken (placeOne distance spacing sample taken source).1)
    (count : Nat) (taken : List α) (source : σ) :
    let r := place distance spacing sample count taken source
    r.1.length = count ∧ r.2.1 = taken ++ r.1.map Placement.point ∧ OneByOne R taken r.1 := by
  induction count generalizing taken source with
  | zero => exact ⟨rfl, by simp [place], .nil⟩
  | succ count ih =>
    have hfirst := hone taken source
    rw [placeOne_eq] at hfirst
    rw [place, placeOne_eq]
    dsimp only at hfirst ⊢
    obtain ⟨hlength, htaken, hothers⟩ := ih _ _
    exact ⟨congrArg (· + 1) hlength, by rw [htaken]; simp, .cons hfirst hothers⟩

/-- **Points that are placed keep their distance**: as many as asked for are placed and taken, in
their order, behind the points that were taken before.  One that is marked as spaced has at least
the required distance from every point taken before it, be it from the beginning or placed, spaced
or not; one that is not is nearer to some of them. -/
theorem place_keeps (hmin : spacing.minDistance.isNaN = false) (count : Nat) (taken : List α)
    (source : σ) :
    ∃ placed rest, place distance spacing sample count taken source
        = (placed, taken ++ placed.map Placement.point, rest) ∧
      placed.length = count ∧
      ∀ before p after, placed = before ++ p :: after →
        Keeps distance spacing.minDistance (taken ++ before.map Placement.point) p := by
  obtain ⟨hlength, htaken, hkeeps⟩ := place_oneByOne distance spacing sample
    (keeps_placeOne distance spacing sample hmin) count taken source
  exact ⟨_, _, by rw [← htaken], hlength, fun before p after split => hkeeps.of_split split⟩

/-- Points in a row, a distance of 25 apart, as they are counted. -/
def inRow (n : Nat) : Point × Nat := (⟨Float32.ofNat (25 * n), 0⟩, n + 1)

/-- With one attempt each, the first point falls on the one that is taken and the second keeps its
distance from both. -/
theorem place_keeps_inRow :
    (20 : Float32).isNaN = false ∧
      ∃ first second rest, place Point.distance ⟨20, 1⟩ inRow 2 [⟨0, 0⟩] 0
          = ([first, second], [⟨0, 0⟩, first.point, second.point], rest) ∧
        (first.spaced = false ∧ Keeps Point.distance 20 [⟨0, 0⟩] first) ∧
        second.spaced = true ∧ Keeps Point.distance 20 [⟨0, 0⟩, first.point] second := by
  have hmin : (20 : Float32).isNaN = false := by decide
  have hspaced : (place Point.distance ⟨20, 1⟩ inRow 2 [⟨0, 0⟩] 0).1.map Placement.spaced
      = [false, true] := by decide +kernel
  obtain ⟨placed, rest, hplace, hlength, hkeeps⟩ :=
    place_keeps Point.distance ⟨20, 1⟩ inRow hmin 2 [⟨0, 0⟩] 0
  rw [hplace] at hspaced ⊢
  match placed with
  | [first, second] =>
    simp only [List.map_cons, List.map_nil, List.cons.injEq, and_true] at hspaced
    exact ⟨hmin, first, second, rest, rfl, ⟨hspaced.1, hkeeps [] first [second] rfl⟩, hspaced.2,
      hkeeps [first] second [] rfl⟩

end Place

end BlockCoding.Spread
