import BlockCoding.Proofs.Single.Order

/-!
# Proofs/Single/Numbers — sums and products that are numbers

What is not a number comes only from what is none, from infinities that cancel, or from an infinity
times zero.  So a finite number can be added to any other (`isNaN_add`), and a finite number that is
not zero can be multiplied with any other (`isNaN_mul`); whether the result is finite does not
matter for that, and neither does how it is rounded.  What lies between finite numbers is finite
(`isFinite_of_le_of_le`).
-/

namespace BlockCoding.Single

open Float.Model (UnpackedFloat Format)
open Float.Model.UnpackedFloat (Sign Accuracy)

variable {a b c : Float32}

/-! ## Unpacked digits -/

section Unpacked

variable {format : Format} {u v : UnpackedFloat}

/-- Where there is a number in either case, there is one. -/
theorem isNaN_dite {p : Prop} [Decidable p] {u : p → UnpackedFloat} {v : ¬ p → UnpackedFloat}
    (hu : ∀ h, (u h).isNaN = false) (hv : ∀ h, (v h).isNaN = false) :
    (dite p u v).isNaN = false := by
  by_cases h : p
  · rw [dif_pos h]
    exact hu h
  · rw [dif_neg h]
    exact hv h

/-- Bits are no number exactly if all bits of the exponent are set, and some of the mantissa. -/
theorem isNaN_unpack_iff (bits : BitVec format.numBits) :
    (UnpackedFloat.unpack format bits).isNaN = true ↔
      UnpackedFloat.unpackExponent bits = -BitVec.ofNat format.exponentBits 1 ∧
        UnpackedFloat.unpackMantissa bits ≠ 0 := by
  delta UnpackedFloat.unpack
  dsimp only
  by_cases hexponent : UnpackedFloat.unpackExponent bits = -BitVec.ofNat format.exponentBits 1
  · rw [if_pos hexponent]
    by_cases hmantissa : UnpackedFloat.unpackMantissa bits = BitVec.ofNat _ 0
    · rw [if_pos hmantissa]
      exact iff_of_false Bool.false_ne_true fun h => h.2 hmantissa
    · rw [if_neg hmantissa]
      exact iff_of_true rfl ⟨hexponent, hmantissa⟩
  · rw [if_neg hexponent]
    refine iff_of_false ?_ fun h => hexponent h.1
    rw [Bool.not_eq_true]
    by_cases hzero : UnpackedFloat.unpackExponent bits = BitVec.ofNat _ 0
    · rw [if_pos hzero]
      exact isNaN_dite (fun _ => rfl) fun _ => rfl
    · rw [if_neg hzero]
      rfl

/-- Packing keeps a number a number, whether or not it overflows. -/
theorem isNaN_unpacked_pack (hu : u.isNaN = false) :
    (UnpackedFloat.unpack format (UnpackedFloat.pack format u)).isNaN = false := by
  rw [← Bool.not_eq_true, isNaN_unpack_iff]
  rintro ⟨hexponent, hmantissa⟩
  cases u with
  | notANumber => cases hu
  | infinity s | zero s =>
    refine hmantissa ?_
    delta UnpackedFloat.pack
    dsimp only [UnpackedFloat.packedInfinity, UnpackedFloat.packedZero]
    rw [UnpackedFloat.unpackMantissa_packComponents]
  | finite s m e hm =>
    delta UnpackedFloat.pack at hexponent hmantissa
    dsimp only at hexponent hmantissa
    split at hexponent
    · next hoverflow =>
      rw [if_pos hoverflow, UnpackedFloat.packedInfinity,
        UnpackedFloat.unpackMantissa_packComponents] at hmantissa
      exact hmantissa rfl
    -- otherwise not all bits of the exponent are set
    · next hroom =>
      have hones : (-BitVec.ofNat format.exponentBits 1).toNat = 2 ^ format.exponentBits - 1 := by
        rw [BitVec.neg_one_eq_allOnes, BitVec.toNat_allOnes]
      split at hexponent <;> rw [UnpackedFloat.unpackExponent_packComponents] at hexponent <;>
        have hbits := congrArg BitVec.toNat hexponent <;>
        rw [hones, BitVec.toNat_ofNat, Nat.mod_eq_of_lt (by omega)] at hbits <;> omega

theorem isNaN_unpack_pack (hu : u.isNaN = false) : (Float32.Model.pack u).unpack.isNaN = false :=
  isNaN_unpacked_pack hu

/-- Rounding gives a number. -/
theorem isNaN_roundWithAccuracy (s : Sign) (mantissa : ℕ) (exponent : ℤ) (accuracy : Accuracy) :
    (UnpackedFloat.roundWithAccuracy format s mantissa exponent accuracy).isNaN = false := by
  rw [UnpackedFloat.roundWithAccuracy]
  exact isNaN_dite (fun _ => rfl) fun _ => rfl

theorem isNaN_normalize (mantissa exponent : ℤ) (s : Sign) :
    (UnpackedFloat.normalize format mantissa exponent s).isNaN = false := by
  rw [UnpackedFloat.normalize]
  split
  · exact isNaN_roundWithAccuracy ..
  · rfl
  · exact isNaN_roundWithAccuracy ..

theorem isNaN_unpacked_add (hu : u.isFinite = true) (hv : v.isNaN = false) :
    (UnpackedFloat.add format u v).isNaN = false := by
  cases u with
  | infinity | notANumber => cases hu
  | zero s =>
    cases v with
    | notANumber => cases hv
    | infinity | finite => rfl
    | zero t => cases s <;> cases t <;> rfl
  | finite =>
    cases v with
    | notANumber => cases hv
    | infinity | zero => rfl
    | finite => exact isNaN_normalize ..

theorem isNaN_unpacked_mul (hu : u.isNaN = false) (hv : v.isFinite = true)
    (hzero : v.beq (.zero .positive) = false) : (UnpackedFloat.mul format u v).isNaN = false := by
  cases v with
  | infinity | notANumber => cases hv
  | zero => cases hzero
  | finite =>
    cases u with
    | notANumber => cases hu
    | infinity | zero => rfl
    | finite => exact isNaN_roundWithAccuracy ..

theorem unpacked_mul_comm (u v : UnpackedFloat) :
    UnpackedFloat.mul format u v = UnpackedFloat.mul format v u := by
  have hsign (s t : Sign) : s * t = t * s := by cases s <;> cases t <;> rfl
  rcases u with s | _ | s | ⟨s, m, e, _⟩ <;> rcases v with t | _ | t | ⟨t, n, f, _⟩
  case finite.finite =>
    change UnpackedFloat.roundWithAccuracy format (s * t) (m * n) (e + f) .exact
      = UnpackedFloat.roundWithAccuracy format (t * s) (n * m) (f + e) .exact
    rw [hsign, Nat.mul_comm, Int.add_comm]
  case infinity.infinity | infinity.finite | finite.infinity =>
    exact congrArg UnpackedFloat.infinity (hsign s t)
  case zero.zero | zero.finite | finite.zero => exact congrArg UnpackedFloat.zero (hsign s t)
  all_goals rfl

/-- Finite digits stand between the two infinities. -/
theorem place_of_isFinite (hu : u.isFinite = true) :
    place (.infinity .negative) < place u ∧ place u < place (.infinity .positive) := by
  rcases u with _ | _ | _ | ⟨_ | _, _, _, _⟩
  case infinity | notANumber => cases hu
  all_goals
    dsimp only [place]
    simp [Prod.Lex.toLex_lt_toLex]

end Unpacked

/-! ## Sums and products -/

/-- **A finite number and any other have a sum.** -/
theorem isNaN_add (ha : a.isFinite = true) (hb : b.isNaN = false) : (a + b).isNaN = false :=
  isNaN_unpack_pack (isNaN_unpacked_add ha hb)

/-- **Any number and a finite one that is not zero have a product.** -/
theorem isNaN_mul (ha : a.isNaN = false) (hb : b.isFinite = true) (hzero : (b == 0) = false) :
    (a * b).isNaN = false :=
  isNaN_unpack_pack (isNaN_unpacked_mul ha hb hzero)

theorem mul_comm (a b : Float32) : a * b = b * a :=
  congrArg (fun u => Float32.ofModel (Float32.Model.pack u)) (unpacked_mul_comm _ _)

/-! ## Between finite numbers -/

/-- **What is between two finite numbers is finite.** -/
theorem isFinite_of_le_of_le (hab : a ≤ b) (hbc : b ≤ c) (ha : a.isFinite = true)
    (hc : c.isFinite = true) : b.isFinite = true := by
  obtain ⟨⟨-, hb⟩, hab⟩ := le_iff.mp hab
  have hbc := (le_iff.mp hbc).2
  have hlow := (place_of_isFinite ha).1.trans_le hab
  have hhigh := hbc.trans_lt (place_of_isFinite hc).2
  change b.toModel.unpack.isNaN = false at hb
  change b.toModel.unpack.isFinite = true
  rw [standing] at hlow hhigh
  generalize b.toModel.unpack = v at *
  cases v with
  | notANumber => cases hb
  | zero | finite => rfl
  | infinity s =>
    cases s with
    | negative => exact absurd hlow (lt_irrefl _)
    | positive => exact absurd hhigh (lt_irrefl _)

/-! ## Clamping -/

/-- A number below the bounds is put onto the lower one. -/
theorem clamp_of_lt (h : c < a) (b : Float32) : clamp a b c = a := if_pos h

/-- A number above the bounds is put onto the upper one. -/
theorem clamp_of_gt (hab : a ≤ b) (h : b < c) : clamp a b c = b := by
  have hac : ¬ c < a := fun hca => not_le_of_lt hca (le_trans hab (le_of_lt h))
  rw [clamp, if_neg hac, if_pos h]

end BlockCoding.Single
