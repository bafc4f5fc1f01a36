import BlockCoding.Proofs.Stage.Selection

/-!
# Proofs/Stage/Images — placing the images of samples

Points may stand for something else, as the points of a plane do for cells.  Where distances are
those of the images, placing the images comes to the same as placing what they are images of
(`place_map`): the same samples are drawn, and the same ones are spaced.
-/

namespace BlockCoding

variable {α β σ : Type}

/-- The placement of the image of a point. -/
def Placement.map (f : α → β) (p : Placement α) : Placement β := ⟨f p.point, p.spaced⟩

namespace Spread

variable (f : α → β) (distance : β → β → Float32) (spacing : Spacing) (sample : σ → α × σ)

/-- Samples that are images. -/
def image (source : σ) : β × σ := (sample source).map f id

theorem clearance_map (taken : List α) (point : α) :
    clearance distance (taken.map f) (f point)
      = clearance (fun a b => distance (f a) (f b)) taken point := by
  rw [clearance, clearance, List.foldl_map]

theorem improve_map (clear : β → Float32) (minDistance : Float32) (further : Nat) (best : α)
    (source : σ) :
    improve clear minDistance (image f sample) further (f best) source
      = (improve (fun a => clear (f a)) minDistance sample further best source).map f id := by
  induction further generalizing best source with
  | zero => rfl
  | succ further ih =>
    rw [improve, improve]
    by_cases hfar : minDistance ≤ clear (f best)
    · rw [if_pos hfar, if_pos hfar]
      rfl
    · rw [if_neg hfar, if_neg hfar]
      rw [← ih]
      simp only [image, Prod.map, apply_ite f]
      rfl

theorem placeOne_map (taken : List α) (source : σ) :
    placeOne distance spacing (image f sample) (taken.map f) source
      = (placeOne (fun a b => distance (f a) (f b)) spacing sample taken source).map
          (Placement.map f) (Prod.map (List.map f) id) := by
  have himprove := improve_map f sample (clearance distance (taken.map f)) spacing.minDistance
    (spacing.attempts.toNat - 1) (draw sample source 0) (sourceAfter sample source 1)
  simp only [clearance_map] at himprove
  have hfirst : draw (image f sample) source 0 = f (draw sample source 0) := rfl
  have hlater : sourceAfter (image f sample) source 1 = sourceAfter sample source 1 := rfl
  rw [placeOne_eq, placeOne_eq, hfirst, hlater, himprove]
  simp only [Prod.map, Placement.map, clearance_map, List.map_append, List.map_cons, List.map_nil,
    id]

/-- **Placing images is placing what they are images of.** -/
theorem place_map (count : Nat) (taken : List α) (source : σ) :
    place distance spacing (image f sample) count (taken.map f) source
      = (place (fun a b => distance (f a) (f b)) spacing sample count taken source).map
          (List.map (Placement.map f)) (Prod.map (List.map f) id) := by
  induction count generalizing taken source with
  | zero => rfl
  | succ count ih =>
    rw [place, place, placeOne_map]
    simp only [Prod.map]
    rw [ih]
    rfl

end Spread

end BlockCoding
