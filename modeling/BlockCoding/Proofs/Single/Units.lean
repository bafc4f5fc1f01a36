import BlockCoding.Proofs.Single.Numbers
import Mathlib

/-!
# Proofs/Single/Units — single-precision numbers counted in units

Every finite number is a whole number of units, of which the least positive number is one.  The
`units` of unpacked digits are ordered as their places are (`place_le_place_iff`), so comparing
numbers is comparing integers (`le_iff_amount`).  Packing changes the units only of what reaches
the `limit`, which becomes infinite (`units_unpack_pack`).
-/

namespace BlockCoding.Single

open Float.Model (UnpackedFloat Format)
open Float.Model.UnpackedFloat (Sign)

/-! ## Normal digits -/

/-- The units in a mantissa with an exponent. -/
def magnitude (mantissa : ℕ) (exponent : ℤ) : ℕ := mantissa * 2 ^ (exponent + 149).toNat

/-- A mantissa without a bit to spare, unless the exponent is the least one. -/
structure Normal (mantissa : ℕ) (exponent : ℤ) : Prop where
  lt : mantissa < 2 ^ 24
  le : -149 ≤ exponent
  full : exponent = -149 ∨ 2 ^ 23 ≤ mantissa

/-- What is too large for a finite number, `2 ^ 128` in units. -/
def limit : ℕ := magnitude (2 ^ 23) 105

variable {m n : ℕ} {e f : ℤ}

theorem magnitude_mono (hm : m ≤ n) (he : e ≤ f) : magnitude m e ≤ magnitude n f :=
  Nat.mul_le_mul hm (Nat.pow_le_pow_right (by decide) (by omega))

theorem magnitude_pos (hm : 0 < m) (e : ℤ) : 0 < magnitude m e :=
  Nat.mul_pos hm (Nat.two_pow_pos _)

theorem limit_pos : 0 < limit := magnitude_pos (by decide) _

theorem magnitude_pow_succ {k : ℕ} (he : -149 ≤ e) :
    magnitude (2 ^ (k + 1)) e = magnitude (2 ^ k) (e + 1) := by
  have hsucc : (e + 1 + 149).toNat = (e + 149).toNat + 1 := by omega
  rw [magnitude, magnitude, hsucc, Nat.pow_succ, Nat.pow_succ]
  ring

/-- A mantissa can be moved to the left as far as its exponent goes. -/
theorem magnitude_shiftLeft (m : ℕ) {k : ℕ} (hk : k ≤ e + 149) :
    magnitude (m <<< k) (e - k) = magnitude m e := by
  have he : (e + 149).toNat = k + (e - k + 149).toNat := by omega
  rw [magnitude, magnitude, he, Nat.shiftLeft_eq, Nat.pow_add, Nat.mul_assoc]

theorem limit_eq : limit = magnitude (2 ^ 24) 104 :=
  (magnitude_pow_succ (k := 23) (e := 104) (by decide)).symm

namespace Normal

theorem magnitude_lt_pow (h : Normal m e) : magnitude m e < magnitude (2 ^ 24) e :=
  Nat.mul_lt_mul_of_pos_right h.lt (Nat.two_pow_pos _)

/-- Normal digits count by their exponents first, then by their mantissas. -/
theorem magnitude_lt (h : Normal m e) (h' : Normal n f) (hlt : e < f ∨ e = f ∧ m < n) :
    magnitude m e < magnitude n f := by
  rcases hlt with hlt | ⟨rfl, hlt⟩
  · have hfull : 2 ^ 23 ≤ n := h'.full.resolve_left (by have := h.le; omega)
    calc magnitude m e < magnitude (2 ^ 24) e := h.magnitude_lt_pow
      _ = magnitude (2 ^ 23) (e + 1) := magnitude_pow_succ h.le
      _ ≤ magnitude n f := magnitude_mono hfull hlt
  · exact Nat.mul_lt_mul_of_pos_right hlt (Nat.two_pow_pos _)

theorem magnitude_lt_limit_iff (h : Normal m e) : magnitude m e < limit ↔ e ≤ 104 := by
  constructor
  · intro hlt
    by_contra hhigh
    have hfull : 2 ^ 23 ≤ m := h.full.resolve_left (by omega)
    exact hlt.not_ge (magnitude_mono hfull (by omega))
  · intro he
    rw [limit_eq]
    exact h.magnitude_lt_pow.trans_le (magnitude_mono le_rfl he)

end Normal

/-! ## Unpacked digits -/

/-- The units that unpacked digits stand for.  An infinity counts for so much that no finite digits
bring it back below the limit. -/
def units : UnpackedFloat → ℤ
  | .infinity s => s.apply (2 * limit)
  | .zero _ | .notANumber => 0
  | .finite s mantissa exponent _ => s.apply (magnitude mantissa exponent)

/-- Digits without a bit to spare. -/
def Canonical : UnpackedFloat → Prop
  | .finite _ mantissa exponent _ => Normal mantissa exponent
  | _ => True

/-- Digits that have room in 32 bits. -/
def Fits : UnpackedFloat → Prop
  | .finite _ mantissa exponent _ => Normal mantissa exponent ∧ exponent ≤ 104
  | _ => True

variable {u v : UnpackedFloat}

/-- The least and the most units of digits of one kind, on one side of zero. -/
def span : UnpackedFloat → ℤ × ℤ
  | .infinity .positive => (2 * limit, 2 * limit)
  | .finite .positive .. => (1, limit - 1)
  | .zero _ | .notANumber => (0, 0)
  | .finite .negative .. => (-limit + 1, -1)
  | .infinity .negative => (-(2 * limit), -(2 * limit))

theorem units_mem_span (hu : Fits u) : (span u).1 ≤ units u ∧ units u ≤ (span u).2 := by
  rcases u with (_ | _) | _ | _ | ⟨s, m, e, hm⟩
  case finite =>
    have hlow := magnitude_pos hm e
    have hhigh := hu.1.magnitude_lt_limit_iff.mpr hu.2
    cases s <;> simp only [span, units, Sign.apply] <;> omega
  all_goals exact ⟨le_rfl, le_rfl⟩

theorem units_eq_of_place_eq (h : place u = place v) : units u = units v := by
  rcases u with (_ | _) | _ | _ | ⟨_ | _, m, e, _⟩ <;>
    rcases v with (_ | _) | _ | _ | ⟨_ | _, n, f, _⟩ <;>
    simp_all [place, units]

theorem units_lt_of_place_lt (hu : Fits u) (hv : Fits v) (h : place u < place v) :
    units u < units v := by
  by_cases hspan : (span u).2 < (span v).1
  · exact (units_mem_span hu).2.trans_lt (hspan.trans_le (units_mem_span hv).1)
  -- what is left are finite digits on one side of zero
  have hlimit := limit_pos
  rcases u with (_ | _) | _ | _ | ⟨_ | _, m, e, hm⟩ <;>
    rcases v with (_ | _) | _ | _ | ⟨_ | _, n, f, hn⟩
  case finite.negative.finite.negative =>
    simp only [place, Prod.Lex.toLex_lt_toLex] at h
    exact Int.neg_lt_neg (Int.ofNat_lt.mpr (hv.1.magnitude_lt hu.1 (by omega)))
  case finite.positive.finite.positive =>
    simp only [place, Prod.Lex.toLex_lt_toLex] at h
    exact Int.ofNat_lt.mpr (hu.1.magnitude_lt hv.1 (by omega))
  all_goals
    dsimp only [span] at hspan
    first
    | omega
    | simp [place, Prod.Lex.toLex_lt_toLex] at h

/-- **Digits are placed in the order of their units.** -/
theorem place_le_place_iff (hu : Fits u) (hv : Fits v) : place u ≤ place v ↔ units u ≤ units v := by
  constructor
  · intro h
    rcases h.lt_or_eq with h | h
    · exact (units_lt_of_place_lt hu hv h).le
    · exact (units_eq_of_place_eq h).le
  · intro h
    by_contra hlt
    exact (units_lt_of_place_lt hv hu (not_le.mp hlt)).not_ge h

theorem apply_neg (s : Sign) (n : ℤ) : (-s).apply n = -s.apply n := by
  cases s with
  | positive => rfl
  | negative => exact (Int.neg_neg n).symm

theorem fits_neg (h : Fits u) : Fits u.neg := by
  cases u with
  | finite => exact h
  | _ => trivial

theorem units_neg (u : UnpackedFloat) : units u.neg = -units u := by
  cases u with
  | infinity | finite => exact apply_neg ..
  | zero | notANumber => rfl

/-! ## Packing -/

theorem toNat_implicit_append (bits : BitVec 23) : (1#1 ++ bits).toNat = 2 ^ 23 + bits.toNat := by
  rw [BitVec.toNat_append, ← Nat.shiftLeft_add_eq_or_of_lt bits.isLt]
  rfl

/-- Whatever is unpacked had room. -/
theorem fits_unpack (bits : BitVec 32) : Fits (UnpackedFloat.unpack Format.binary32 bits) := by
  have hexponent : (@UnpackedFloat.unpackExponent Format.binary32 bits).toNat < 2 ^ 8 :=
    (@UnpackedFloat.unpackExponent Format.binary32 bits).isLt
  have hmantissa : (@UnpackedFloat.unpackMantissa Format.binary32 bits).toNat < 2 ^ 23 :=
    (@UnpackedFloat.unpackMantissa Format.binary32 bits).isLt
  have hbias : Format.binary32.exponentBias = 127 := rfl
  delta UnpackedFloat.unpack
  dsimp only
  rw [hbias]
  split
  · split <;> trivial
  · next hinf =>
    split
    · next hzero =>
      split
      · trivial
      · rw [Fits, hzero]
        exact ⟨⟨by omega, by decide, .inl (by decide)⟩, by decide⟩
    · next hzero =>
      have hlow := BitVec.toNat_pos_of_ne_zero hzero
      have hhigh : (@UnpackedFloat.unpackExponent Format.binary32 bits).toNat ≠ 255 :=
        fun h => hinf (BitVec.eq_of_toNat_eq h)
      change Normal (1#1 ++ @UnpackedFloat.unpackMantissa Format.binary32 bits).toNat _ ∧ _
      rw [toNat_implicit_append]
      refine ⟨⟨by omega, by omega, .inr (by omega)⟩, by omega⟩

/-- Unless all bits of the exponent are equal, the mantissa has its implicit bit. -/
theorem unpack_packed {format : Format} (s : Sign) {exponent : BitVec format.exponentBits}
    (mantissa : BitVec format.mantissaBitsWithoutImplicit) (hinf : exponent ≠ -BitVec.ofNat _ 1)
    (hzero : exponent ≠ BitVec.ofNat _ 0) : UnpackedFloat.unpack format
        (UnpackedFloat.packComponents format s exponent mantissa)
      = .finite s (1#1 ++ mantissa).toNat
        (exponent.toNat - (format.exponentBias + format.mantissaBitsWithoutImplicit))
        (by simp) := by
  delta UnpackedFloat.unpack
  simp only [UnpackedFloat.unpackExponent_packComponents,
    UnpackedFloat.unpackMantissa_packComponents, UnpackedFloat.unpackSign_packComponents,
    if_neg hinf, if_neg hzero, Sign.ofBitVec_toBitVec]

/-- Without an exponent, the mantissa is as it is. -/
theorem unpack_packed_zero {format : Format} (s : Sign)
    {mantissa : BitVec format.mantissaBitsWithoutImplicit} (hpos : 0 < mantissa.toNat)
    (hinf : BitVec.ofNat format.exponentBits 0 ≠ -BitVec.ofNat _ 1) : UnpackedFloat.unpack format
        (UnpackedFloat.packComponents format s (BitVec.ofNat _ 0) mantissa)
      = .finite s mantissa.toNat
        (0 - (format.exponentBias + format.mantissaBitsWithoutImplicit) + 1) hpos := by
  have hmantissa : mantissa ≠ BitVec.ofNat _ 0 := by
    rintro rfl
    simp at hpos
  delta UnpackedFloat.unpack
  simp only [UnpackedFloat.unpackExponent_packComponents,
    UnpackedFloat.unpackMantissa_packComponents, UnpackedFloat.unpackSign_packComponents,
    if_neg hinf, dif_neg hmantissa, if_true, Sign.ofBitVec_toBitVec, BitVec.toNat_ofNat,
    Nat.zero_mod, Nat.cast_zero]

/-- Finite digits are packed as a sign, an exponent and a mantissa unless they are too large. -/
theorem pack_finite (s : Sign) (e : ℤ) (hm : 0 < m) :
    UnpackedFloat.pack Format.binary32 (.finite s m e hm) =
      if 105 ≤ e then UnpackedFloat.packedInfinity Format.binary32 s
      else UnpackedFloat.packComponents Format.binary32 s
        (if m.log2 = 23 then BitVec.ofNat 8 (e + 150).toNat else 0#8) (BitVec.ofNat 23 m) := by
  have hbias : e + (Format.binary32.exponentBias : ℤ) + (23 : ℕ) = e + 150 := by
    change e + 127 + 23 = e + 150
    omega
  have hlarge : 2 ^ 8 ≤ (e + 150).toNat + 1 ↔ 105 ≤ e := by omega
  have hfull : m.log2 + 1 = Format.binary32.mantissaBits ↔ m.log2 = 23 := by
    change m.log2 + 1 = 24 ↔ _
    omega
  delta UnpackedFloat.pack
  simp only [hbias, hlarge, hfull]
  split
  · rfl
  · split <;> rfl

/-- Normal digits that are not too large are packed and unpacked unchanged. -/
theorem Normal.unpack_pack (h : Normal m e) (he : e ≤ 104) (s : Sign) (hm : 0 < m) :
    (Float32.Model.pack (.finite s m e hm)).unpack = .finite s m e hm := by
  obtain ⟨hlt, hlow, hfull⟩ := h
  change UnpackedFloat.unpack _ (UnpackedFloat.pack Format.binary32 (.finite s m e hm)) = _
  rw [pack_finite, if_neg (by omega)]
  by_cases hlog : 2 ^ 23 ≤ m
  · have hexponent : (BitVec.ofNat 8 (e + 150).toNat).toNat = (e + 150).toNat := by
      rw [BitVec.toNat_ofNat]
      exact Nat.mod_eq_of_lt (by omega)
    have hne {k : ℕ} (hk : (BitVec.ofNat 8 k).toNat ≠ (e + 150).toNat) :
        BitVec.ofNat 8 (e + 150).toNat ≠ BitVec.ofNat 8 k := fun heq =>
      hk (by rw [← heq, hexponent])
    rw [if_pos ((Nat.log2_eq_iff hm.ne').mpr ⟨hlog, hlt⟩),
      unpack_packed s _ (hne (k := 255) (by simp; omega)) (hne (by simp; omega))]
    congr 1
    · rw [toNat_implicit_append, BitVec.toNat_ofNat]
      omega
    · rw [hexponent]
      change ((e + 150).toNat : ℤ) - 150 = e
      omega
  · obtain rfl := hfull.resolve_right hlog
    have hmantissa : (BitVec.ofNat 23 m).toNat = m := by
      rw [BitVec.toNat_ofNat]
      exact Nat.mod_eq_of_lt (not_le.mp hlog)
    rw [if_neg fun hbits => hlog ((Nat.log2_eq_iff hm.ne').mp hbits).1,
      unpack_packed_zero s (by rwa [hmantissa]) (by decide)]
    congr 1

/-- Digits that are too large become infinite. -/
theorem unpack_pack_of_large (he : 104 < e) (s : Sign) (hm : 0 < m) :
    (Float32.Model.pack (.finite s m e hm)).unpack = .infinity s := by
  change UnpackedFloat.unpack _ (UnpackedFloat.pack Format.binary32 (.finite s m e hm)) = _
  rw [pack_finite, if_pos (by omega)]
  cases s <;> rfl

/-- The units after packing, where what reaches the limit is infinite. -/
def held (n : ℤ) : ℤ :=
  if limit ≤ n then 2 * limit else if n ≤ -limit then -(2 * limit) else n

theorem held_mono : Monotone held := by
  intro m n h
  have hlimit := limit_pos
  unfold held
  split_ifs <;> omega

theorem held_units (h : Fits u) : held (units u) = units u := by
  have hspan := units_mem_span h
  have hlimit := limit_pos
  rcases u with (_ | _) | _ | _ | ⟨_ | _, _, _, _⟩ <;> dsimp only [span] at hspan <;>
    unfold held <;> split_ifs <;> omega

/-- **Packing makes what reaches the limit infinite, and keeps the rest.** -/
theorem units_unpack_pack (hu : Canonical u) :
    units (Float32.Model.pack u).unpack = held (units u) := by
  cases u with
  | infinity s =>
    rw [held_units (u := .infinity s) trivial]
    cases s <;> rfl
  | zero s =>
    rw [held_units (u := .zero s) trivial]
    cases s <;> rfl
  | notANumber =>
    rw [held_units (u := .notANumber) trivial]
    rfl
  | finite s m e hm =>
    have hnormal : Normal m e := hu
    by_cases he : e ≤ 104
    · have hfits : Fits (.finite s m e hm) := ⟨hnormal, he⟩
      rw [hnormal.unpack_pack he, held_units hfits]
    · have hlarge : limit ≤ magnitude m e := not_lt.mp (mt hnormal.magnitude_lt_limit_iff.mp he)
      have hlimit := limit_pos
      rw [unpack_pack_of_large (not_le.mp he)]
      cases s <;> simp only [held, units, Sign.apply] <;> split_ifs <;> omega

/-! ## Numbers -/

variable {a b : Float32}

/-- The units of a number. -/
def amount (a : Float32) : ℤ := units a.toModel.unpack

theorem fits_toModel_unpack (a : Float32) : Fits a.toModel.unpack := fits_unpack _

/-- **Numbers are ordered by their units.** -/
theorem le_iff_amount :
    a ≤ b ↔ (a.isNaN = false ∧ b.isNaN = false) ∧ amount a ≤ amount b :=
  le_iff.trans (and_congr_right fun _ =>
    place_le_place_iff (fits_toModel_unpack a) (fits_toModel_unpack b))

/-- What has the same digits is the same. -/
theorem eq_of_unpack_eq (h : a.toModel.unpack = b.toModel.unpack) : a = b :=
  Float32.toBits_inj.mp (UInt32.toBitVec_inj.mp
    ((UnpackedFloat.unpack_inj_of_valid a.toModel.valid b.toModel.valid).mp h))

end BlockCoding.Single
