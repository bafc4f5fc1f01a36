import BlockCoding.Proofs.Binary.Rounding
import BlockCoding.Single.Decimal

/-!
# Proofs/Binary/Doubles — products and quotients in double precision

A `Double` is a positive number of double precision without a bit to spare.  Where neither the
factors nor the result are out of range, products and quotients of such numbers are numbers of this
kind again (`Double.mul_toFloat`, `Double.div_toFloat`), next to the exact result and equal to it if
it has room (`Rounds`).
-/

namespace BlockCoding.Binary

open Float.Model (UnpackedFloat Format totalExponent)
open Float.Model.UnpackedFloat (Sign)

/-- The digits of a positive number of double precision, without a bit to spare. -/
structure Double where
  mantissa : ℕ
  exponent : ℤ
  full : 2 ^ 52 ≤ mantissa
  lt : mantissa < 2 ^ 53
  least : -1074 ≤ exponent
  greatest : exponent ≤ 971

namespace Double

theorem pos (d : Double) : 0 < d.mantissa := (Nat.two_pow_pos 52).trans_le d.full

/-- The number that the digits stand for. -/
def value (d : Double) : ℚ := d.mantissa * 2 ^ d.exponent

/-- The digits, on one side of zero. -/
def unpacked (s : Sign) (d : Double) : UnpackedFloat := .finite s d.mantissa d.exponent d.pos

/-- The number of double precision with these digits. -/
def toFloat (s : Sign) (d : Double) : Float := .ofModel (.pack (d.unpacked s))

theorem value_pos (d : Double) : 0 < d.value :=
  mul_pos (Nat.cast_pos.mpr d.pos) (zpow_pos two_pos _)

theorem leads (d : Double) : Leads (52 + d.exponent) d.value := by
  have hlog : d.mantissa.log2 = 52 := (Nat.log2_eq_iff d.pos.ne').mpr ⟨d.full, d.lt⟩
  have h := (leads_natCast d.pos).mul_zpow d.exponent
  rwa [hlog] at h

/-- The bits of the number: sign, exponent and mantissa. -/
theorem pack_unpacked (s : Sign) (d : Double) : UnpackedFloat.pack Format.binary64 (d.unpacked s)
    = UnpackedFloat.packComponents Format.binary64 s (BitVec.ofNat 11 (d.exponent + 1075).toNat)
      (BitVec.ofNat 52 d.mantissa) := by
  have hleast := d.least
  have hgreatest := d.greatest
  have hlog : d.mantissa.log2 = 52 := (Nat.log2_eq_iff d.pos.ne').mpr ⟨d.full, d.lt⟩
  have hbias : d.exponent + (Format.binary64.exponentBias : ℤ) + (52 : ℕ) = d.exponent + 1075 := by
    change d.exponent + 1023 + 52 = _
    omega
  have hroom : ¬ 2 ^ 11 ≤ (d.exponent + 1075).toNat + 1 := by omega
  have hbits : 52 + 1 = Format.binary64.mantissaBits := rfl
  delta unpacked UnpackedFloat.pack
  simp only [hbias, hlog, hbits, if_true, hroom, if_false]

theorem toNat_append {j k : ℕ} (a : BitVec j) (b : BitVec k) :
    (a ++ b).toNat = a.toNat * 2 ^ k + b.toNat := by
  rw [BitVec.toNat_append, ← Nat.shiftLeft_add_eq_or_of_lt b.isLt, Nat.shiftLeft_eq]

variable (s : Sign) (d : Double)

theorem toNat_exponent : (BitVec.ofNat 11 (d.exponent + 1075).toNat).toNat
    = (d.exponent + 1075).toNat := by
  have hleast := d.least
  have hgreatest := d.greatest
  rw [BitVec.toNat_ofNat]
  exact Nat.mod_eq_of_lt (by omega)

theorem toNat_mantissa : (BitVec.ofNat 52 d.mantissa).toNat = d.mantissa - 2 ^ 52 := by
  have hfull := d.full
  have hlt := d.lt
  rw [BitVec.toNat_ofNat]
  omega

/-- The digits are unpacked as they are. -/
theorem unpack_toFloat : (d.toFloat s).toModel.unpack = d.unpacked s := by
  have hleast := d.least
  have hgreatest := d.greatest
  have hfull := d.full
  have hne {k : ℕ} (hk : (BitVec.ofNat 11 k).toNat ≠ (d.exponent + 1075).toNat) :
      BitVec.ofNat 11 (d.exponent + 1075).toNat ≠ BitVec.ofNat 11 k := fun heq =>
    hk (by rw [← heq, toNat_exponent])
  change UnpackedFloat.unpack Format.binary64 (UnpackedFloat.pack Format.binary64 _) = _
  rw [pack_unpacked, Single.unpack_packed s _ (hne (k := 2047) (by simp; omega))
    (hne (by simp; omega)), unpacked]
  congr 1
  · rw [toNat_append, toNat_mantissa]
    change 1 * 2 ^ 52 + _ = _
    omega
  · rw [toNat_exponent]
    change ((d.exponent + 1075).toNat : ℤ) - 1075 = d.exponent
    omega

theorem neg_toFloat : -d.toFloat s = d.toFloat (-s) := by
  change Float.ofModel (.pack (d.toFloat s).toModel.unpack.neg) = _
  rw [unpack_toFloat]
  rfl

/-- The bits of the number, as one integer. -/
theorem toNat_toBits : (d.toFloat s).toBits.toNat
    = s.toBitVec.toNat * 2 ^ 63 + (d.exponent + 1075).toNat * 2 ^ 52 + (d.mantissa - 2 ^ 52) := by
  change (UnpackedFloat.pack Format.binary64 (d.unpacked s)).toNat = _
  rw [pack_unpacked]
  change (s.toBitVec ++ BitVec.ofNat 11 _ ++ BitVec.ofNat 52 _).toNat = _
  rw [toNat_append, toNat_append, toNat_exponent, toNat_mantissa]
  ring

end Double

/-! ## Results -/

/-- A number of double precision is next to an exact result, and equal to it if it has room. -/
structure Rounds (d : Double) (x : ℚ) : Prop where
  close : |d.value - x| ≤ x / 2 ^ 53
  exact : ∀ (b : ℕ) (j : ℤ), b < 2 ^ 53 → x = b * 2 ^ j → d.value = x

variable {L : ℤ} {x : ℚ} {n : ℕ}

/-- Where the leading bit is not out of range, a number of 53 bits remains. -/
theorem target_eq (hL : -1000 ≤ L) : Format.binary64.targetExponent (L + 1) = L - 52 := by
  change max (L + 1 - 53) (-1074) = _
  omega

/-- Scaled by its target, a number has 53 bits before the point. -/
theorem Leads.scaled (hx : Leads L x) :
    (2 : ℚ) ^ 52 ≤ x / 2 ^ (L - 52) ∧ x / 2 ^ (L - 52) < 2 ^ 53 := by
  have h := hx.mul_zpow (-(L - 52))
  rw [zpow_neg, ← div_eq_mul_inv] at h
  have hL : L + -(L - 52) = (52 : ℕ) := by omega
  have hL' : L + -(L - 52) + 1 = (53 : ℕ) := by omega
  rw [Leads, hL', hL, zpow_natCast, zpow_natCast] at h
  exact h

theorem le_of_nearest (hx : Leads L x) (hn : Nearest n (x / 2 ^ (L - 52))) :
    2 ^ 52 ≤ n ∧ n ≤ 2 ^ 53 := by
  have hscaled := hx.scaled
  have hclose := abs_le.mp hn.close
  have hlow : (2 : ℚ) ^ 52 < n + 1 := by linarith
  have hhigh : (n : ℚ) < 2 ^ 53 + 1 := by linarith
  constructor
  · exact Nat.lt_succ_iff.mp (by exact_mod_cast hlow)
  · exact Nat.lt_succ_iff.mp (by exact_mod_cast hhigh)

/-- A number of at most 53 bits is a multiple of its target. -/
theorem nearest_mul_eq {b : ℕ} {j : ℤ} (hx : Leads L x) (hn : Nearest n (x / 2 ^ (L - 52)))
    (hb : b < 2 ^ 53) (hbj : x = b * 2 ^ j) : (n : ℚ) * 2 ^ (L - 52) = x := by
  have hb' : (b : ℚ) < 2 ^ (53 : ℤ) := by exact_mod_cast hb
  have hj : L < 53 + j := by
    rw [← zpow_lt_zpow_iff_right₀ (one_lt_two : (1 : ℚ) < 2), zpow_add₀ two_ne_zero]
    calc (2 : ℚ) ^ L ≤ b * 2 ^ j := hx.1.trans_eq hbj
      _ < 2 ^ (53 : ℤ) * 2 ^ j := mul_lt_mul_of_pos_right hb' (zpow_pos two_pos j)
  obtain ⟨k, hk⟩ : ∃ k : ℕ, j = L - 52 + k := ⟨(j - (L - 52)).toNat, by omega⟩
  have hscaled : x / 2 ^ (L - 52) = (b * 2 ^ k : ℕ) := by
    rw [hbj, hk, zpow_add₀ two_ne_zero, zpow_natCast]
    push_cast
    field_simp
  rw [hscaled] at hn
  rw [hn.unique (nearest_natCast _), ← hscaled, div_mul_cancel₀ _ (zpow_pos two_pos _).ne']

/-- **What is rounded in range is a number of double precision.** -/
theorem exists_rounds (hx : Leads L x) (hlow : -1000 ≤ L) (hhigh : L ≤ 1000)
    (hn : Nearest n (x / 2 ^ (L - 52))) (s : Sign) :
    ∃ d : Double, settled Format.binary64 s n (L - 52) = d.unpacked s ∧ Rounds d x := by
  obtain ⟨hfull, hle⟩ := le_of_nearest hx hn
  have hpos : (0 : ℚ) < 2 ^ (L - 52) := zpow_pos two_pos _
  have hrounds (d : Double) (hd : d.value = n * 2 ^ (L - 52)) : Rounds d x := by
    refine ⟨?_, fun b j hb hbj => hd.trans (nearest_mul_eq hx hn hb hbj)⟩
    have hscaled := hx.scaled
    have hclose := hn.close
    have hvalue : d.value - x = (n - x / 2 ^ (L - 52)) * 2 ^ (L - 52) := by
      rw [hd, sub_mul, div_mul_cancel₀ _ hpos.ne']
    have hx' : x = x / 2 ^ (L - 52) * 2 ^ (L - 52) := (div_mul_cancel₀ _ hpos.ne').symm
    rw [hvalue, abs_mul, abs_of_pos hpos, le_div_iff₀ (by positivity)]
    calc |n - x / 2 ^ (L - 52)| * 2 ^ (L - 52) * 2 ^ 53
        ≤ 1 / 2 * 2 ^ (L - 52) * 2 ^ 53 := by gcongr
      _ = 2 ^ 52 * 2 ^ (L - 52) := by ring
      _ ≤ x / 2 ^ (L - 52) * 2 ^ (L - 52) := by gcongr; exact hscaled.1
      _ = x := hx'.symm
  rcases hle.lt_or_eq with hlt | rfl
  · refine ⟨⟨n, L - 52, hfull, hlt, by omega, by omega⟩, ?_, hrounds _ rfl⟩
    exact settled_of_lt _ hlt
  · refine ⟨⟨2 ^ 52, L - 52 + 1, le_rfl, by decide, by omega, by omega⟩, ?_, hrounds _ ?_⟩
    · exact settled_full
    · rw [Double.value, zpow_add₀ two_ne_zero]
      push_cast
      ring

namespace Double

variable {a b : Double}

/-- Whether a number is far from both ends of the range. -/
def Tame (x : ℚ) : Prop := (2 : ℚ) ^ (-1000 : ℤ) ≤ x ∧ x < 2 ^ (1001 : ℤ)

theorem Tame.exists_leads (h : Tame x) : ∃ L, Leads L x ∧ -1000 ≤ L ∧ L ≤ 1000 := by
  obtain ⟨L, hL⟩ := Binary.exists_leads ((zpow_pos two_pos _).trans_le h.1)
  have hlow := (zpow_lt_zpow_iff_right₀ one_lt_two).mp (h.1.trans_lt hL.2)
  have hhigh := (zpow_lt_zpow_iff_right₀ one_lt_two).mp (hL.1.trans_lt h.2)
  exact ⟨L, hL, by omega, by omega⟩

/-- **A product is rounded.** -/
theorem mul_toFloat (s t : Sign) (h : Tame (a.value * b.value)) :
    ∃ d : Double, a.toFloat s * b.toFloat t = d.toFloat (s * t) ∧
      Rounds d (a.value * b.value) := by
  obtain ⟨L, hL, hlow, hhigh⟩ := h.exists_leads
  have hexponents : a.exponent + b.exponent ≤ Format.binary64.targetExponent (L + 1) := by
    have hleads := le_of_leads_mul a.leads b.leads hL
    rw [target_eq hlow]
    omega
  obtain ⟨n, hn, hmul⟩ := mul_eq s t a.pos b.pos hL hexponents
  rw [target_eq hlow] at hn hmul
  obtain ⟨d, hd, hrounds⟩ := exists_rounds hL hlow hhigh hn (s * t)
  refine ⟨d, ?_, hrounds⟩
  change Float.ofModel (.pack (UnpackedFloat.mul Format.binary64 (a.toFloat s).toModel.unpack
    (b.toFloat t).toModel.unpack)) = _
  rw [unpack_toFloat, unpack_toFloat, unpacked, unpacked, hmul, hd]
  rfl

/-- **A quotient is rounded.** -/
theorem div_toFloat (s t : Sign) (h : Tame (a.value / b.value)) :
    ∃ d : Double, a.toFloat s / b.toFloat t = d.toFloat (s / t) ∧
      Rounds d (a.value / b.value) := by
  obtain ⟨L, hL, hlow, hhigh⟩ := h.exists_leads
  obtain ⟨n, hn, hdiv⟩ := div_eq s t a.pos b.pos hL
  rw [target_eq hlow] at hn hdiv
  obtain ⟨d, hd, hrounds⟩ := exists_rounds hL hlow hhigh hn (s / t)
  refine ⟨d, ?_, hrounds⟩
  change Float.ofModel (.pack (UnpackedFloat.div Format.binary64 (a.toFloat s).toModel.unpack
    (b.toFloat t).toModel.unpack)) = _
  rw [unpack_toFloat, unpack_toFloat, unpacked, unpacked, hdiv, hd]
  rfl

end Double

/-! ## Integers and powers of ten -/

theorem tame_of_le {b : ℕ} (hlow : 1 ≤ x) (hhigh : x ≤ 2 ^ b) (hb : b ≤ 1000) :
    Double.Tame x := by
  constructor
  · exact (zpow_le_one_of_nonpos₀ one_le_two (by decide)).trans hlow
  · refine hhigh.trans_lt ?_
    rw [← zpow_natCast, zpow_lt_zpow_iff_right₀ one_lt_two]
    omega

/-- A positive integer of 53 bits is a number of double precision. -/
theorem exists_toFloat_uint64 {m : ℕ} (hpos : 0 < m) (hlt : m < 2 ^ 53) :
    ∃ d : Double, m.toUInt64.toFloat = d.toFloat .positive ∧ d.value = m := by
  have hone : (1 : ℚ) ≤ m := Nat.one_le_cast.mpr hpos
  have hle : (m : ℚ) ≤ 2 ^ 53 := by exact_mod_cast hlt.le
  have hm : (m : ℚ) * 2 ^ (0 : ℤ) = m := by rw [zpow_zero, mul_one]
  obtain ⟨L, hL, hlow, hhigh⟩ := (tame_of_le hone hle (by decide)).exists_leads
  rw [← hm] at hL
  obtain ⟨n, hn, hround⟩ := @round_eq Format.binary64 .positive m 0 L hpos hL
  rw [target_eq hlow] at hn hround
  obtain ⟨d, hd, hrounds⟩ := exists_rounds hL hlow hhigh hn .positive
  refine ⟨d, ?_, (hrounds.exact m 0 hlt rfl).trans hm⟩
  have hnat : m.toUInt64.toNat = m := by
    change m % 2 ^ 64 = m
    omega
  have hgreater : compare (m : ℤ) 0 = .gt := compare_gt_iff_gt.mpr (by omega)
  change Float.ofModel (.pack (UnpackedFloat.normalize Format.binary64 (m.toUInt64.toNat : ℤ) 0
    .positive)) = _
  rw [hnat, UnpackedFloat.normalize, hgreater]
  change Float.ofModel (.pack (UnpackedFloat.round Format.binary64 .positive m 0)) = _
  rw [hround, hd]
  rfl

/-- The number one. -/
def one : Double := ⟨2 ^ 52, -52, le_rfl, by decide, by decide, by decide⟩

theorem value_one : one.value = 1 := by
  rw [Double.value, one, zpow_neg]
  norm_num

theorem exists_ofNat {m : ℕ} (hpos : 0 < m) (hlt : m < 2 ^ 53) :
    ∃ d : Double, Float.ofNat m = d.toFloat .positive ∧ d.value = m := by
  obtain ⟨a, ha, hvalue⟩ := exists_toFloat_uint64 hpos hlt
  have hproduct : a.value * one.value = m := by rw [hvalue, value_one, mul_one]
  have htame : Double.Tame (a.value * one.value) := by
    rw [hproduct]
    exact tame_of_le (b := 53) (Nat.one_le_cast.mpr hpos) (by exact_mod_cast hlt.le) (by decide)
  obtain ⟨d, hd, hrounds⟩ := Double.mul_toFloat .positive .positive htame
  rw [hproduct] at hrounds
  refine ⟨d, ?_, hrounds.exact m 0 hlt (by rw [zpow_zero, mul_one])⟩
  change Float.ofScientific m false 0 = _
  rw [Float.ofScientific, dif_pos ⟨hlt, by decide⟩, ha]
  exact hd

/-- Powers of ten are not looked up in a table where they could be. -/
theorem powerOfTen_eq (k : ℕ) : Decimal.powerOfTen k = .ofModel (.ofScientific 1 k) := by
  by_cases hk : k ≤ 22
  · have htable : ∀ i : Fin 23, (Decimal.powerOfTen i).toBits
        = (Float.ofModel (.ofScientific 1 (i : ℕ))).toBits := by decide +kernel
    exact Float.toBits_inj.mp (htable ⟨k, by omega⟩)
  · rw [Decimal.powerOfTen, Float.ofScientific, dif_neg fun h => hk h.2]
    rfl

/-- A power of ten is rounded. -/
theorem exists_powerOfTen {k : ℕ} (hk : k ≤ 300) :
    ∃ d : Double, Decimal.powerOfTen k = d.toFloat .positive ∧ Rounds d (10 ^ k) := by
  have hone : (1 : ℚ) ≤ 10 ^ k := one_le_pow₀ (by norm_num)
  have hle : (10 : ℚ) ^ k ≤ 2 ^ (10 * 100) :=
    calc (10 : ℚ) ^ k ≤ 10 ^ (3 * 100) := pow_le_pow_right₀ (by norm_num) hk
      _ = (10 ^ 3) ^ 100 := pow_mul ..
      _ ≤ (2 ^ 10) ^ 100 := pow_le_pow_left₀ (by norm_num) (by norm_num) _
      _ = 2 ^ (10 * 100) := (pow_mul ..).symm
  have hvalue : ((1 : ℕ) : ℚ) * 10 ^ k = 10 ^ k := by rw [Nat.cast_one, one_mul]
  have hfew : k ≤ 2 ^ Format.binary64.exponentBits := hk.trans (by decide)
  obtain ⟨L, hL, hlow, hhigh⟩ := (tame_of_le hone hle (by decide)).exists_leads
  rw [← hvalue] at hL
  obtain ⟨n, hn, hround⟩ := ofScientific_eq_of_nonneg one_pos hfew hL
  rw [hvalue] at hL hn
  rw [target_eq hlow] at hn hround
  obtain ⟨d, hd, hrounds⟩ := exists_rounds hL hlow hhigh hn .positive
  refine ⟨d, ?_, hrounds⟩
  rw [powerOfTen_eq, Double.toFloat, ← hd, ← hround]
  rfl

end BlockCoding.Binary
