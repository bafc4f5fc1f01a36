import BlockCoding.Proofs.Single.Narrowing

/-!
# Proofs/Single/Reading — no decimal is read as what is no number

A power of ten is finite and not zero, so products and quotients with it are numbers
(`isNaN_magnitude?`).  What is a number in double precision is one in single precision
(`isNaN_ofDouble`).  So a decimal is read as a number, if as an infinite one
(`Decimal.isNaN_toSingle?`).
-/

namespace BlockCoding

namespace Binary

open Float.Model (UnpackedFloat Format)
open Single (isNaN_roundWithAccuracy isNaN_unpacked_pack isNaN_normalize)

/-! ## Unpacked digits -/

section Unpacked

variable {format : Format} {u v : UnpackedFloat}

/-- Whether unpacked digits are finite and not zero. -/
def isProper : UnpackedFloat → Bool
  | .finite .. => true
  | _ => false

theorem isNaN_unpacked_mul_of_isProper (hu : u.isNaN = false) (hv : isProper v = true) :
    (UnpackedFloat.mul format u v).isNaN = false := by
  cases v with
  | infinity | notANumber | zero => cases hv
  | finite s => exact Single.isNaN_unpacked_mul hu rfl (by cases s <;> rfl)

theorem isNaN_unpacked_div_of_isProper (hu : u.isNaN = false) (hv : isProper v = true) :
    (UnpackedFloat.div format u v).isNaN = false := by
  cases v with
  | infinity | notANumber | zero => cases hv
  | finite =>
    cases u with
    | notANumber => cases hu
    | infinity | zero => rfl
    | finite => exact isNaN_roundWithAccuracy ..

/-- Digits with a power of ten are rounded to a number. -/
theorem isNaN_unpacked_ofScientific (m : ℕ) (e : ℤ) :
    (UnpackedFloat.ofScientific format m e).isNaN = false := by
  rw [UnpackedFloat.ofScientific]
  split
  · rfl
  · split_ifs
    · rfl
    · rfl
    · exact isNaN_unpacked_mul_of_isProper rfl rfl
    · exact isNaN_unpacked_div_of_isProper rfl rfl

theorem isNaN_unpacked_neg (u : UnpackedFloat) : u.neg.isNaN = u.isNaN := by
  cases u <;> rfl

end Unpacked

/-! ## Double precision -/

section Double

variable {x y : Float}

theorem isNaN_mul (hx : x.isNaN = false) (hy : isProper y.toModel.unpack = true) :
    (x * y).isNaN = false :=
  isNaN_unpacked_pack (isNaN_unpacked_mul_of_isProper hx hy)

theorem isNaN_div (hx : x.isNaN = false) (hy : isProper y.toModel.unpack = true) :
    (x / y).isNaN = false :=
  isNaN_unpacked_pack (isNaN_unpacked_div_of_isProper hx hy)

theorem isNaN_neg (hx : x.isNaN = false) : (-x).isNaN = false :=
  isNaN_unpacked_pack ((isNaN_unpacked_neg _).trans hx)

theorem isNaN_ofNat (m : ℕ) : (Float.ofNat m).isNaN = false := by
  have hone : ∀ h : 0 < Float.exactlyRepresentablePowersOfTen.size,
      isProper (Float.exactlyRepresentablePowersOfTen[0]).toModel.unpack = true := by decide
  change (Float.ofScientific m false 0).isNaN = false
  rw [Float.ofScientific]
  split
  · exact isNaN_mul (isNaN_unpacked_pack (isNaN_normalize ..)) (hone _)
  · exact isNaN_unpacked_pack (isNaN_unpacked_ofScientific ..)

/-- **A power of ten is finite and not zero.** -/
theorem isProper_powerOfTen {k : ℕ} (hk : k ≤ Decimal.greatestPower) :
    isProper (Decimal.powerOfTen k).toModel.unpack = true := by
  by_cases hsmall : k ≤ 300
  · obtain ⟨d, hd, -⟩ := exists_powerOfTen hsmall
    rw [hd, Double.unpack_toFloat]
    rfl
  · have hlarge : ∀ i : Fin 8, isProper (Decimal.powerOfTen (301 + i)).toModel.unpack = true := by
      decide +kernel
    have hlast : k ≤ 308 := hk
    obtain ⟨i, rfl⟩ : ∃ i, k = 301 + i := ⟨k - 301, by omega⟩
    exact hlarge ⟨i, by omega⟩

end Double

end Binary

/-- **The magnitude of a decimal is a number.** -/
theorem Decimal.isNaN_of_magnitude? {d : Decimal} {x : Float} (h : d.magnitude? = some x) :
    x.isNaN = false := by
  simp only [magnitude?] at h
  split_ifs at h with hzero hneg hfew hfew <;> obtain rfl := Option.some.inj h
  · exact Binary.isNaN_ofNat _
  · exact Binary.isNaN_div (Binary.isNaN_ofNat _) (Binary.isProper_powerOfTen hfew)
  · exact Binary.isNaN_div
      (Binary.isNaN_div (Binary.isNaN_ofNat _) (Binary.isProper_powerOfTen le_rfl))
      (Binary.isProper_powerOfTen (min_le_right _ _))
  · exact Binary.isNaN_mul (Binary.isNaN_ofNat _) (Binary.isProper_powerOfTen hfew)

/-! ## Single precision -/

namespace Single

open Float.Model (UnpackedFloat Format)
open Binary (isProper)

theorem isNaN_neg {a : Float32} (ha : a.isNaN = false) : (-a).isNaN = false :=
  isNaN_unpacked_pack ((Binary.isNaN_unpacked_neg _).trans ha)

theorem isInf_of_isFinite {a : Float32} (ha : a.isFinite = true) : a.isInf = false := by
  change a.toModel.unpack.isFinite = true at ha
  change a.toModel.unpack.isInf = false
  cases hu : a.toModel.unpack with
  | notANumber | infinity =>
    rw [hu] at ha
    cases ha
  | zero | finite => rfl

/-- A number is finite unless it is infinite. -/
theorem isFinite_of_isNaN {a : Float32} (ha : a.isNaN = false) (hinf : a.isInf = false) :
    a.isFinite = true := by
  change a.toModel.unpack.isNaN = false at ha
  change a.toModel.unpack.isInf = false at hinf
  change a.toModel.unpack.isFinite = true
  cases hu : a.toModel.unpack with
  | notANumber =>
    rw [hu] at ha
    cases ha
  | infinity =>
    rw [hu] at hinf
    cases hinf
  | zero | finite => rfl

theorem isNaN_ofScientific (m : ℕ) (divided : Bool) (k : ℕ) :
    (Float32.ofScientific m divided k).isNaN = false := by
  have htable : ∀ (i : Fin 11) (h : i < Float32.exactlyRepresentablePowersOfTen.size),
      isProper (Float32.exactlyRepresentablePowersOfTen[i.val]).toModel.unpack = true := by decide
  have hwhole : m.toUInt64.toFloat32.isNaN = false := isNaN_unpacked_pack (isNaN_normalize ..)
  rw [Float32.ofScientific]
  split
  · next hfew =>
    have hpower := htable ⟨k, by omega⟩ (by have := hfew.2; change k < 11; omega)
    dsimp only
    split
    · exact isNaN_unpacked_pack (Binary.isNaN_unpacked_div_of_isProper hwhole hpower)
    · exact isNaN_unpacked_pack (Binary.isNaN_unpacked_mul_of_isProper hwhole hpower)
  · exact isNaN_unpacked_pack (Binary.isNaN_unpacked_ofScientific ..)

theorem isNaN_ofInt (i : ℤ) : (Float32.ofInt i).isNaN = false := by
  cases i with
  | ofNat n => exact isNaN_ofScientific n false 0
  | negSucc n => exact isNaN_neg (isNaN_ofScientific n.succ false 0)

theorem isNaN_ofDyadic (m : ℕ) (e : ℤ) : (ofDyadic m e).isNaN = false := by
  rw [ofDyadic]
  split <;> exact isNaN_ofScientific ..

/-- The bits of a number are no number exactly if all bits of the exponent are set, and some of the
fraction. -/
theorem isNaN_iff_toBits (x : Float) : x.isNaN = true ↔
    x.toBits.toNat / doubleUnit % 0x800 = 2047 ∧ x.toBits.toNat % doubleUnit ≠ 0 := by
  have hexponent : (@UnpackedFloat.unpackExponent Format.binary64 x.toBits.toBitVec).toNat
      = x.toBits.toNat / doubleUnit % 0x800 := by
    rw [UnpackedFloat.unpackExponent, BitVec.toNat_cast, BitVec.extractLsb_toNat,
      Nat.shiftRight_eq_div_pow]
    rfl
  have hmantissa : (@UnpackedFloat.unpackMantissa Format.binary64 x.toBits.toBitVec).toNat
      = x.toBits.toNat % doubleUnit := by
    rw [UnpackedFloat.unpackMantissa, BitVec.toNat_cast, BitVec.extractLsb_toNat,
      Nat.shiftRight_zero]
    rfl
  refine (@isNaN_unpack_iff Format.binary64 x.toBits.toBitVec).trans ?_
  rw [← hexponent, ← hmantissa, ← BitVec.toNat_inj, ne_eq, ← BitVec.toNat_inj]
  exact Iff.rfl

/-- **What is a number in double precision is one in single precision.** -/
theorem isNaN_ofDouble {x : Float} (hx : x.isNaN = false) : (ofDouble x).isNaN = false := by
  have hnumber := (isNaN_iff_toBits x).not.mp (Bool.not_eq_true _ ▸ hx)
  have hinfinity : (Float32.ofBits 0x7f800000).isNaN = false := by decide
  simp only [ofDouble]
  split_ifs with hsign hexponent hfraction
  · exact isNaN_neg hinfinity
  · exact absurd ⟨hexponent, hfraction⟩ hnumber
  · exact isNaN_neg (isNaN_ofDyadic ..)
  · exact isNaN_neg (isNaN_ofDyadic ..)
  · exact hinfinity
  · next hexponent hfraction => exact absurd ⟨hexponent, hfraction⟩ hnumber
  · exact isNaN_ofDyadic ..
  · exact isNaN_ofDyadic ..

end Single

/-- **A decimal is read as a number.** -/
theorem Decimal.isNaN_of_toSingle? {d : Decimal} {x : Float32} (h : d.toSingle? = some x) :
    x.isNaN = false := by
  obtain ⟨y, hy, rfl⟩ := Option.map_eq_some_iff.mp h
  obtain ⟨z, hz, rfl⟩ := Option.map_eq_some_iff.mp hy
  refine Single.isNaN_ofDouble ?_
  split
  · exact Binary.isNaN_neg (isNaN_of_magnitude? hz)
  · exact isNaN_of_magnitude? hz

end BlockCoding
