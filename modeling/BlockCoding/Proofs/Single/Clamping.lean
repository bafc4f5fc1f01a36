import BlockCoding.Proofs.Single.Order

/-!
# Proofs/Single/Clamping — the larger of two, and what is clamped

The larger of two is a number as soon as one of them is, so it keeps what is no number out
(`right_le_larger`).  A clamped number is within the bounds (`clamp_mem`), but what is no number
goes through (`isNaN_clamp`).
-/

namespace BlockCoding.Single

variable {lo hi v : Float32}

/-- **A clamped number is within the bounds.** -/
theorem clamp_mem (hlh : lo ≤ hi) (hv : v.isNaN = false) :
    lo ≤ clamp lo hi v ∧ clamp lo hi v ≤ hi := by
  obtain ⟨⟨hlo, hhi⟩, -⟩ := le_iff.mp hlh
  rw [clamp]
  split
  · exact ⟨le_refl hlo, hlh⟩
  · next hlow =>
    split
    · exact ⟨hlh, le_refl hhi⟩
    · next hhigh => exact ⟨le_of_not_lt hv hlo hlow, le_of_not_lt hhi hv hhigh⟩

/-- Clamping lets through what is no number. -/
theorem isNaN_clamp (hlo : lo.isNaN = false) (hhi : hi.isNaN = false) :
    (clamp lo hi v).isNaN = v.isNaN := by
  cases hv : v.isNaN with
  | true =>
    have hlow : ¬ v < lo := fun h => Bool.noConfusion (hv.symm.trans (lt_iff.mp h).1.1)
    have hhigh : ¬ hi < v := fun h => Bool.noConfusion (hv.symm.trans (lt_iff.mp h).1.2)
    rw [clamp, if_neg hlow, if_neg hhigh, hv]
  | false =>
    rw [clamp]
    split
    · exact hlo
    · split
      · exact hhi
      · exact hv

/-- **The larger of two is at least the second, if that is a number.** -/
theorem right_le_larger (a : Float32) {b : Float32} (hb : b.isNaN = false) : b ≤ larger a b := by
  rw [larger]
  split
  · exact le_refl hb
  · next ha =>
    rw [if_neg (by rw [hb]; exact Bool.false_ne_true)]
    split
    · exact le_refl hb
    · next hlt => exact le_of_not_lt (by simpa using ha) hb hlt

end BlockCoding.Single
