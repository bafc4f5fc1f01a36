import BlockCoding.Proofs.Single.CloseCalls
import BlockCoding.Proofs.Single.Shortest

/-!
# Proofs/Single/Decimals — a decimal that stands for a number is read as the number

A decimal of 53 bits is read by way of double precision: at most two roundings lie between it and
what becomes a number of single precision (`exists_magnitude?`), and none if it has room there.
That is too little to leave the reach of the number: a decimal of the number is not that close to an
end unless it is the end (`Denotes.reach_of_near`).  So it is read as the number that it stands for
(`toSingle?_of_denotes`), save for the numbers next to the three middles that some decimal is close
to; these are left to be tried one by one.
-/

namespace BlockCoding

open Binary (Double Rounds)
open Float.Model (UnpackedFloat Format)
open Float.Model.UnpackedFloat (Sign)

namespace Decimal

/-! ## Two roundings -/

/-- A number is as close to another one as two roundings in double precision leave it. -/
def Near (z x : ℚ) : Prop := |z - x| ≤ 33 / 2 ^ 57 * x

/-- It is closer after one rounding. -/
def Nearer (z x : ℚ) : Prop := |z - x| ≤ 33 / 2 ^ 58 * x

variable {x y z w t : ℚ}

theorem near_of_nearer (hy : Nearer y x) (hz : |z - y| ≤ y / 2 ^ 53) : Near z x := by
  obtain ⟨hlow, hhigh⟩ := abs_le.mp hy
  obtain ⟨hlow', hhigh'⟩ := abs_le.mp hz
  exact abs_le.mpr ⟨by linarith, by linarith⟩

/-- A factor may be rounded. -/
theorem nearer_mul (hw : 0 ≤ w) (ht : |y - t| ≤ t / 2 ^ 53) : Nearer (w * y) (w * t) := by
  have ht' : 0 ≤ t := by
    have := (abs_nonneg _).trans ht
    linarith
  have hle := mul_le_mul_of_nonneg_left ht hw
  rw [Nearer, ← mul_sub, abs_mul, abs_of_nonneg hw]
  refine hle.trans ?_
  have hproduct := mul_nonneg hw ht'
  linarith

/-- A divisor may be rounded. -/
theorem nearer_div (hw : 0 ≤ w) (ht : 0 < t) (hy : |y - t| ≤ t / 2 ^ 53) :
    Nearer (w / y) (w / t) := by
  obtain ⟨hlow, hhigh⟩ := abs_le.mp hy
  have hpos : 0 < y := by linarith
  have hv : w = w / t * t := (div_mul_cancel₀ _ ht.ne').symm
  have hnonneg : 0 ≤ w / t := div_nonneg hw ht.le
  generalize w / t = v at *
  subst hv
  have hoff : v * t / y - v = v * (t - y) / y := by
    field_simp
  have hsub : |t - y| ≤ 33 / 2 ^ 58 * y := by
    rw [abs_sub_comm]
    exact hy.trans (by linarith)
  rw [Nearer, hoff, abs_div, abs_mul, abs_of_nonneg hnonneg, abs_of_pos hpos, div_le_iff₀ hpos]
  calc v * |t - y| ≤ v * (33 / 2 ^ 58 * y) := mul_le_mul_of_nonneg_left hsub hnonneg
    _ = 33 / 2 ^ 58 * v * y := by ring

/-- A number that a decimal can stand for. -/
def InRange (x : ℚ) : Prop := 1 / 10 ^ 54 ≤ x ∧ x ≤ 2 ^ 53 * 10 ^ 54

theorem tame_of_nearer (hx : InRange x) (h : Nearer y x) : Double.Tame y := by
  obtain ⟨hlow, hhigh⟩ := hx
  obtain ⟨hlow', hhigh'⟩ := abs_le.mp h
  constructor
  · calc (2 : ℚ) ^ (-1000 : ℤ) ≤ 2 ^ (-181 : ℤ) := zpow_le_zpow_right₀ one_le_two (by decide)
      _ ≤ 1 / 10 ^ 54 / 2 := by norm_num
      _ ≤ y := by linarith
  · calc y ≤ 2 ^ 53 * 10 ^ 54 * 2 := by linarith
      _ < 2 ^ (240 : ℤ) := by norm_num
      _ ≤ 2 ^ (1001 : ℤ) := zpow_le_zpow_right₀ one_le_two (by decide)

/-! ## Reading by way of double precision -/

/-- What is left in double precision of a number with a power of ten: a number near to it, and the
number itself if it and the power of ten have room. -/
structure Reads (x : Double) (v : ℚ) (k : ℕ) : Prop where
  near : Near x.value v
  exact : k ≤ 22 → ∀ (b : ℕ) (j : ℤ), b < 2 ^ 53 → v = b * 2 ^ j → x.value = v

variable {a p : Double} {k : ℕ}

/-- A power of ten with room is not rounded. -/
theorem value_eq_of_rounds (hp : Rounds p (10 ^ k)) (hk : k ≤ 22) : p.value = 10 ^ k := by
  have hroom : 5 ^ k < 2 ^ 53 := (Nat.pow_le_pow_right (by decide) hk).trans_lt (by decide)
  refine hp.exact (5 ^ k) k hroom ?_
  rw [zpow_natCast]
  push_cast
  rw [← mul_pow]
  norm_num

theorem exists_product (hp : Rounds p (10 ^ k)) (hrange : InRange (a.value * 10 ^ k)) :
    ∃ x : Double, a.toFloat .positive * p.toFloat .positive = x.toFloat .positive ∧
      Reads x (a.value * 10 ^ k) k := by
  have hnearer := nearer_mul a.value_pos.le hp.close
  obtain ⟨x, hx, hrounds⟩ := Double.mul_toFloat .positive .positive (tame_of_nearer hrange hnearer)
  refine ⟨x, hx, near_of_nearer hnearer hrounds.close, fun hroom => ?_⟩
  rw [value_eq_of_rounds hp hroom] at hrounds
  exact hrounds.exact

theorem exists_quotient (hp : Rounds p (10 ^ k)) (hrange : InRange (a.value / 10 ^ k)) :
    ∃ x : Double, a.toFloat .positive / p.toFloat .positive = x.toFloat .positive ∧
      Reads x (a.value / 10 ^ k) k := by
  have hnearer := nearer_div a.value_pos.le (by positivity) hp.close
  obtain ⟨x, hx, hrounds⟩ := Double.div_toFloat .positive .positive (tame_of_nearer hrange hnearer)
  refine ⟨x, hx, near_of_nearer hnearer hrounds.close, fun hroom => ?_⟩
  rw [value_eq_of_rounds hp hroom] at hrounds
  exact hrounds.exact

/-- The number that a decimal stands for, without its sign. -/
def value (d : Decimal) : ℚ := d.mantissa * 10 ^ d.exponent

variable {d : Decimal}

/-- **A decimal of 53 bits is rounded at most twice.** -/
theorem exists_magnitude? (hpos : 0 < d.mantissa) (hlt : d.mantissa < 2 ^ 53)
    (hexponent : d.exponent.natAbs ≤ 54) :
    ∃ x : Double, d.magnitude? = some (x.toFloat .positive) ∧
      Reads x d.value d.exponent.natAbs := by
  obtain ⟨a, ha, hvalue⟩ := Binary.exists_ofNat hpos hlt
  obtain ⟨p, hp, hrounds⟩ := Binary.exists_powerOfTen (hexponent.trans (by decide))
  have hone : (1 : ℚ) ≤ 10 ^ d.exponent.natAbs := one_le_pow₀ (by norm_num)
  have hpow : (10 : ℚ) ^ d.exponent.natAbs ≤ 10 ^ 54 := pow_le_pow_right₀ (by norm_num) hexponent
  have hm : (1 : ℚ) ≤ d.mantissa := Nat.one_le_cast.mpr hpos
  have hm53 : (d.mantissa : ℚ) ≤ 2 ^ 53 := by exact_mod_cast hlt.le
  have hgreatest : d.exponent.natAbs ≤ greatestPower := hexponent.trans (by decide)
  by_cases hneg : d.exponent < 0
  · have hten : d.value = a.value / 10 ^ d.exponent.natAbs := by
      rw [value, hvalue, div_eq_mul_inv, ← zpow_natCast, ← zpow_neg]
      congr 2
      omega
    have hrange : InRange (a.value / 10 ^ d.exponent.natAbs) := by
      rw [hvalue]
      constructor
      · gcongr
      · exact (div_le_self (by linarith) hone).trans (by linarith)
    obtain ⟨x, hx, hreads⟩ := exists_quotient hrounds hrange
    refine ⟨x, ?_, hten ▸ hreads⟩
    simp only [magnitude?, if_neg hpos.ne', if_pos hneg, if_pos hgreatest, ha, hp, hx]
  · have hten : d.value = a.value * 10 ^ d.exponent.natAbs := by
      rw [value, hvalue, ← zpow_natCast]
      congr 2
      omega
    have hrange : InRange (a.value * 10 ^ d.exponent.natAbs) := by
      rw [hvalue]
      constructor
      · exact le_trans (by norm_num) (one_le_mul_of_one_le_of_one_le hm hone)
      · gcongr
    obtain ⟨x, hx, hreads⟩ := exists_product hrounds hrange
    have hfinite : (x.toFloat .positive).isInf = false := by
      change (x.toFloat .positive).toModel.unpack.isInf = false
      rw [Double.unpack_toFloat]
      rfl
    refine ⟨x, ?_, hten ▸ hreads⟩
    simp only [magnitude?, if_neg hpos.ne', if_neg hneg, if_pos hgreatest, ha, hp, hx, hfinite]
    rfl

end Decimal

namespace Single

variable {m B c : ℕ} {q j k : ℤ} {b z : ℚ}

/-! ## The ends of a reach -/

/-- The end of a reach is a middle, one of its powers of two away from the number.  The number is
one of the two next to the middle in the same power of two, or the power of two that follows it. -/
structure EndsAt (m : ℕ) (q : ℤ) (b : ℚ) (j : ℤ) (B : ℕ) : Prop where
  middle : IsMiddle j B
  eq : b = B * 2 ^ j
  away : |b - m * 2 ^ q| = 2 ^ j
  next : B = 2 ^ 25 - 1 ∨ q = j + 1 ∧ (m = B / 2 ∨ m = B / 2 + 1)

theorem zpow_half (q : ℤ) : (2 : ℚ) ^ q = 2 * 2 ^ (q - 1) := by
  rw [← zpow_one_add₀ two_ne_zero, add_sub_cancel]

theorem endsAt_upper (hnormal : Normal m q) (hq : q ≤ 104) :
    EndsAt m q (upperEnd m q) (q - 1) (2 * m + 1) := by
  obtain ⟨hlt, hle, hfull⟩ := hnormal
  have haway : upperEnd m q - m * 2 ^ q = 2 ^ (q - 1) := by
    rw [upperEnd, zpow_half q]
    ring
  refine ⟨⟨by omega, by omega, by omega, by omega, by omega⟩, ?_, ?_, .inr (by omega)⟩
  · rw [upperEnd, zpow_half q]
    push_cast
    ring
  · rw [haway, abs_of_pos (zpow_pos two_pos _)]

theorem exists_endsAt_lower (hm : 0 < m) (hnormal : Normal m q) (hq : q ≤ 104) :
    ∃ j B, EndsAt m q (lowerEnd m q) j B := by
  obtain ⟨hlt, hle, hfull⟩ := hnormal
  by_cases hdense : m = 2 ^ 23 ∧ -149 < q
  · have heq : lowerEnd m q = (2 ^ 25 - 1 : ℕ) * 2 ^ (q - 1 - 1) := by
      rw [lowerEnd, if_pos hdense, hdense.1, zpow_half q, zpow_half (q - 1)]
      norm_num
      ring
    have haway : lowerEnd m q - m * 2 ^ q = -2 ^ (q - 1 - 1) := by
      rw [lowerEnd, if_pos hdense, zpow_half q, zpow_half (q - 1)]
      ring
    refine ⟨q - 1 - 1, 2 ^ 25 - 1, ⟨by omega, by omega, by decide, by decide, .inr (by decide)⟩,
      heq, ?_, .inl rfl⟩
    rw [haway, abs_neg, abs_of_pos (zpow_pos two_pos _)]
  · have heq : lowerEnd m q = (2 * m - 1 : ℕ) * 2 ^ (q - 1) := by
      rw [lowerEnd, if_neg hdense, zpow_half q, Nat.cast_sub (by omega)]
      push_cast
      ring
    have haway : lowerEnd m q - m * 2 ^ q = -2 ^ (q - 1) := by
      rw [lowerEnd, if_neg hdense, zpow_half q]
      ring
    refine ⟨q - 1, 2 * m - 1, ⟨by omega, by omega, by omega, by omega, by omega⟩, heq, ?_,
      .inr (by omega)⟩
    rw [haway, abs_neg, abs_of_pos (zpow_pos two_pos _)]

/-! ## Two roundings do not leave a reach -/

/-- The numbers next to a middle that some decimal is close to. -/
def besideCloseCalls : List (ℕ × ℤ) :=
  [(11420669, -107), (11420670, -107), (11420669, -106), (11420670, -106), (14437329, -49),
    (14437330, -49)]

theorem EndsAt.mem_besideCloseCalls (h : EndsAt m q b j B) (hcall : (j, (B : ℤ)) ∈ closeCalls) :
    (m, q) ∈ besideCloseCalls := by
  have hnext := h.next
  simp only [closeCalls, List.mem_cons, List.not_mem_nil, Prod.mk.injEq, or_false] at hcall
  simp only [besideCloseCalls, List.mem_cons, List.not_mem_nil, Prod.mk.injEq, or_false]
  omega

namespace Denotes

/-- The decimal of a number that is close to an end is the end, or the number is beside a close
call. -/
theorem eq_or_mem_besideCloseCalls (h : Denotes m q c k) (hend : EndsAt m q b j B)
    (hclose : |c * 10 ^ k - b| ≤ 33 / 2 ^ 57 * (c * 10 ^ k)) :
    ((c : ℚ) * 10 ^ k = B * 2 ^ j ∧ -34 ≤ j ∧ j ≤ 33) ∨ (m, q) ∈ besideCloseCalls := by
  have hpow : (0 : ℚ) < 2 ^ j := zpow_pos two_pos j
  have hstep := h.close
  have haway := hend.away
  have hb : b ≤ 2 ^ 25 * 2 ^ j := by
    have hlt : (B : ℚ) ≤ 2 ^ 25 := by exact_mod_cast hend.middle.lt.le
    rw [hend.eq]
    gcongr
  have hclose' : |(c : ℚ) * 10 ^ k - b| ≤ 17 / 2 ^ 31 * 2 ^ j := by
    have hhigh := (abs_le.mp hclose).2
    exact hclose.trans (by linarith)
  have hk : (2 : ℚ) ^ j * (1 - 1 / 2 ^ 26) ≤ 10 ^ k := by
    have htriangle := abs_sub_le b (c * 10 ^ k) (m * 2 ^ q)
    rw [abs_sub_comm b (c * 10 ^ k)] at htriangle
    linarith
  rw [hend.eq] at hclose'
  exact (eq_or_mem_closeCalls hend.middle hk hclose').imp_right hend.mem_besideCloseCalls

/-- **What two roundings leave of the decimal of a number is in the reach of the number**, unless
it is beside a close call.  In the range where a decimal can be an end, it is not rounded at all. -/
theorem reach_of_near (h : Denotes m q c k) (hm : 0 < m) (hnormal : Normal m q) (hq : q ≤ 104)
    (hz : Decimal.Near z (c * 10 ^ k)) (hcall : (m, q) ∉ besideCloseCalls)
    (hexact : ∀ j B, IsMiddle j B → -34 ≤ j → j ≤ 33 → (c : ℚ) * 10 ^ k = B * 2 ^ j →
      z = c * 10 ^ k) : Reach m q z := by
  -- otherwise an end lies between the decimal and what is left of it
  have hpassed {j B b} (hend : EndsAt m q b j B) (hb : |c * 10 ^ k - b| ≤ |z - c * 10 ^ k|) :
      Reach m q z := by
    obtain ⟨heq, hj, hj'⟩ :=
      (h.eq_or_mem_besideCloseCalls hend (hb.trans hz)).resolve_right hcall
    rw [hexact j B hend.middle hj hj' heq]
    exact h.reach
  obtain ⟨hlow, hhigh, -⟩ := h.reach
  by_cases hlow' : lowerEnd m q < z
  · by_cases hhigh' : z < upperEnd m q
    · exact ⟨hlow'.le, hhigh'.le, fun _ => ⟨hlow', hhigh'⟩⟩
    · refine hpassed (endsAt_upper hnormal hq) ?_
      rw [abs_of_nonpos (by linarith), abs_of_nonneg (by linarith)]
      linarith
  · obtain ⟨j, B, hend⟩ := exists_endsAt_lower hm hnormal hq
    refine hpassed hend ?_
    rw [abs_of_nonneg (by linarith), abs_of_nonpos (by linarith)]
    linarith

end Denotes

/-- A decimal that is a middle in the range where that can be has a small power of ten. -/
theorem natAbs_exponent_le {d : Decimal} (hpos : 0 < d.mantissa) (hlt : d.mantissa < 2 ^ 53)
    (h : IsMiddle j B) (hj : -34 ≤ j) (hj' : j ≤ 33) (hd : d.value = B * 2 ^ j) :
    d.exponent.natAbs ≤ 22 := by
  have hm : (1 : ℚ) ≤ d.mantissa := Nat.one_le_cast.mpr hpos
  have hm53 : (d.mantissa : ℚ) < 2 ^ 53 := by exact_mod_cast hlt
  have hfirst : (2 ^ 24 - 1) * 2 ^ (-34 : ℤ) ≤ (B : ℚ) * 2 ^ j := by
    have hfull : (2 ^ 24 - 1 : ℚ) ≤ B := by
      have hB : 2 ^ 24 ≤ B + 1 := Nat.sub_le_iff_le_add.mp (h.full.resolve_left (by omega))
      exact sub_le_iff_le_add.mpr (by exact_mod_cast hB)
    have hpow : (2 : ℚ) ^ (-34 : ℤ) ≤ 2 ^ j := zpow_le_zpow_right₀ one_le_two hj
    exact mul_le_mul hfull hpow (zpow_pos two_pos _).le (Nat.cast_nonneg _)
  have hlast : (B : ℚ) * 2 ^ j ≤ 2 ^ 25 * 2 ^ (33 : ℤ) := by
    have hB : (B : ℚ) ≤ 2 ^ 25 := by exact_mod_cast h.lt.le
    gcongr
    exact one_le_two
  rw [← hd, Decimal.value] at hfirst hlast
  by_contra hfar
  rcases (by omega : 23 ≤ d.exponent ∨ d.exponent ≤ -23) with hlarge | hsmall
  · have hpow : (10 : ℚ) ^ (23 : ℤ) ≤ 10 ^ d.exponent := zpow_le_zpow_right₀ (by norm_num) hlarge
    have hle : (10 : ℚ) ^ (23 : ℤ) ≤ d.mantissa * 10 ^ d.exponent :=
      hpow.trans (le_mul_of_one_le_left (zpow_pos (by norm_num) _).le hm)
    norm_num at hle hlast
    linarith
  · have hpow : (10 : ℚ) ^ d.exponent ≤ 10 ^ (-23 : ℤ) := zpow_le_zpow_right₀ (by norm_num) hsmall
    have hle : (d.mantissa : ℚ) * 10 ^ d.exponent ≤ 2 ^ 53 * 10 ^ (-23 : ℤ) := by gcongr
    norm_num at hle hfirst
    linarith

/-- **A decimal that stands for a number is read as the number.** -/
theorem toSingle?_of_denotes {d : Decimal} (h : Denotes m q c k) (hm : 0 < m)
    (hnormal : Normal m q) (hq : q ≤ 104) (hcall : (m, q) ∉ besideCloseCalls)
    (hpos : 0 < d.mantissa) (hlt : d.mantissa < 2 ^ 53) (hexponent : d.exponent.natAbs ≤ 54)
    (hvalue : d.value = c * 10 ^ k) (s : Sign) (hs : d.negative = isNegative s) :
    d.toSingle? = some (ofDigits s m q hm) := by
  obtain ⟨x, hx, hreads⟩ := Decimal.exists_magnitude? hpos hlt hexponent
  have hreach : Reach m q x.value := by
    refine h.reach_of_near hm hnormal hq (hvalue ▸ hreads.near) hcall fun j B hB hj hj' heq => ?_
    have hroom := natAbs_exponent_le hpos hlt hB hj hj' (hvalue.trans heq)
    rw [← hvalue] at heq ⊢
    exact hreads.exact hroom B j (hB.lt.trans (by decide)) heq
  rw [Decimal.toSingle?, Decimal.toDouble?, hx, hs]
  cases s with
  | positive => exact congrArg some (ofDouble_toFloat .positive hm hnormal hq hreach)
  | negative =>
    refine congrArg some ?_
    change ofDouble (-x.toFloat .positive) = _
    rw [Double.neg_toFloat]
    exact ofDouble_toFloat .negative hm hnormal hq hreach

end Single

end BlockCoding
