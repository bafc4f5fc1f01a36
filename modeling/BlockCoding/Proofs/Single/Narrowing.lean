import BlockCoding.Proofs.Binary.Doubles
import BlockCoding.Single.Shortest

/-!
# Proofs/Single/Narrowing — from double precision to single precision

A number of double precision becomes the number of single precision whose `Reach` it is in
(`ofDouble_toFloat`): the numbers that are nearer to this one than to its neighbours, and those half
way if the mantissa is even.  Every finite number is one of its digits (`exists_ofDigits`), which
`dyadic` takes apart (`dyadic_ofDigits`).
-/

namespace BlockCoding.Single

open Float.Model (UnpackedFloat Format)
open Float.Model.UnpackedFloat (Sign)
open Binary (Leads Nearest Double settled)

/-! ## Numbers by their digits -/

variable {m : ℕ} {q : ℤ}

/-- The number with the given digits. -/
def ofDigits (s : Sign) (m : ℕ) (q : ℤ) (hm : 0 < m) : Float32 :=
  .ofModel (.pack (.finite s m q hm))

variable (s : Sign) (hm : 0 < m)

theorem unpack_ofDigits (h : Normal m q) (hq : q ≤ 104) :
    (ofDigits s m q hm).toModel.unpack = .finite s m q hm := h.unpack_pack hq s hm

theorem neg_ofDigits (h : Normal m q) (hq : q ≤ 104) :
    -ofDigits s m q hm = ofDigits (-s) m q hm := by
  change Float32.ofModel (.pack (ofDigits s m q hm).toModel.unpack.neg) = _
  rw [unpack_ofDigits s hm h hq]
  rfl

/-- **A finite number is a zero or the number of its digits.** -/
theorem exists_ofDigits {x : Float32} (hx : x.isFinite = true) :
    (∃ s, x.toModel.unpack = .zero s) ∨
      ∃ s m q, ∃ hm : 0 < m, Normal m q ∧ q ≤ 104 ∧ x = ofDigits s m q hm := by
  have hfits := fits_toModel_unpack x
  change x.toModel.unpack.isFinite = true at hx
  rcases hu : x.toModel.unpack with _ | s | s | ⟨s, m, q, hm⟩
  · rw [hu] at hx
    cases hx
  · rw [hu] at hx
    cases hx
  · exact .inl ⟨s, rfl⟩
  · rw [hu] at hfits
    refine .inr ⟨s, m, q, hm, hfits.1, hfits.2, eq_of_unpack_eq ?_⟩
    rw [hu, unpack_ofDigits s hm hfits.1 hfits.2]

/-- The bits of the number: the exponent counts from one unless the mantissa has a bit to spare. -/
theorem toNat_toBits_ofDigits (h : Normal m q) (hq : q ≤ 104) :
    (ofDigits s m q hm).toBits.toNat = s.toBitVec.toNat * 2 ^ 31
      + (if 2 ^ 23 ≤ m then (q + 150).toNat else 0) * 2 ^ 23 + m % 2 ^ 23 := by
  have hlog : m.log2 = 23 ↔ 2 ^ 23 ≤ m := by
    rw [Nat.log2_eq_iff hm.ne']
    exact and_iff_left h.lt
  have hle := h.le
  change (UnpackedFloat.pack Format.binary32 (.finite s m q hm)).toNat = _
  rw [pack_finite, if_neg (by omega), if_congr hlog rfl rfl]
  split
  · change (s.toBitVec ++ BitVec.ofNat 8 (q + 150).toNat ++ BitVec.ofNat 23 m).toNat = _
    rw [Double.toNat_append, Double.toNat_append, BitVec.toNat_ofNat, BitVec.toNat_ofNat,
      Nat.mod_eq_of_lt (a := (q + 150).toNat) (by omega)]
    ring
  · change (s.toBitVec ++ BitVec.ofNat 8 0 ++ BitVec.ofNat 23 m).toNat = _
    rw [Double.toNat_append, Double.toNat_append, BitVec.toNat_ofNat, BitVec.toNat_ofNat]
    ring

/-- Whether a sign is a minus. -/
def isNegative : Sign → Bool
  | .negative => true
  | .positive => false

/-- **A number is taken apart into its digits.** -/
theorem dyadic_ofDigits (h : Normal m q) (hq : q ≤ 104) :
    dyadic (ofDigits s m q hm) = (isNegative s, m, q) := by
  have hbits := toNat_toBits_ofDigits s hm h hq
  obtain ⟨hlt, hle, hfull⟩ := h
  have hsign : decide (0x80000000 ≤ (ofDigits s m q hm).toBits.toNat) = isNegative s := by
    rw [hbits]
    cases s with
    | negative => exact decide_eq_true (by change 2 ^ 31 ≤ 1 * 2 ^ 31 + _ + _; omega)
    | positive =>
      refine decide_eq_false ?_
      change ¬ 2 ^ 31 ≤ 0 * 2 ^ 31 + _ + _
      split <;> omega
  have hfraction : (ofDigits s m q hm).toBits.toNat % unit = m % 2 ^ 23 := by
    rw [hbits, unit]
    omega
  have hexponent : (ofDigits s m q hm).toBits.toNat / unit % 0x100
      = if 2 ^ 23 ≤ m then (q + 150).toNat else 0 := by
    rw [hbits, unit]
    split <;> omega
  simp only [dyadic, hsign, hfraction, hexponent]
  by_cases hm : 2 ^ 23 ≤ m
  · rw [if_pos hm, if_neg (by omega), unit]
    congr 2 <;> omega
  · rw [if_neg hm, if_pos rfl, Nat.mod_eq_of_lt (not_le.mp hm), hfull.resolve_right hm]

/-! ## The reals that become a number -/

/-- Where the reals begin that are nearer to `m · 2 ^ q` than to the number before it; below a power
of two the numbers are twice as dense. -/
def lowerEnd (m : ℕ) (q : ℤ) : ℚ :=
  (m - if m = 2 ^ 23 ∧ -149 < q then 1 / 4 else 1 / 2) * 2 ^ q

/-- Where they end. -/
def upperEnd (m : ℕ) (q : ℤ) : ℚ := (m + 1 / 2) * 2 ^ q

/-- A number that becomes `m · 2 ^ q`: the ends belong to it if the mantissa is even. -/
structure Reach (m : ℕ) (q : ℤ) (z : ℚ) : Prop where
  low : lowerEnd m q ≤ z
  high : z ≤ upperEnd m q
  odd : m % 2 = 1 → lowerEnd m q < z ∧ z < upperEnd m q

variable {z : ℚ} {L : ℤ} {n : ℕ}

namespace Reach

/-- The least distance to the mantissa, in units of the last place. -/
theorem le_lowerEnd (m : ℕ) (q : ℤ) : (m - 1 / 2) * 2 ^ q ≤ lowerEnd m q := by
  refine mul_le_mul_of_nonneg_right ?_ (zpow_pos two_pos q).le
  split <;> linarith

theorem scaled (h : Reach m q z) : (m : ℚ) - 1 / 2 ≤ z / 2 ^ q ∧ z / 2 ^ q ≤ m + 1 / 2 := by
  have hpos : (0 : ℚ) < 2 ^ q := zpow_pos two_pos q
  rw [le_div_iff₀ hpos, div_le_iff₀ hpos]
  exact ⟨(le_lowerEnd m q).trans h.low, h.high⟩

/-- The mantissa is the nearest integer. -/
theorem nearest (h : Reach m q z) : Nearest m (z / 2 ^ q) := by
  have hpos : (0 : ℚ) < 2 ^ q := zpow_pos two_pos q
  obtain ⟨hlow, hhigh⟩ := h.scaled
  refine ⟨abs_le.mpr ⟨by linarith, by linarith⟩, fun heq => ?_⟩
  by_contra hodd
  obtain ⟨hlow', hhigh'⟩ := h.odd (by omega)
  have hlow'' : (m : ℚ) - 1 / 2 < z / 2 ^ q :=
    (lt_div_iff₀ hpos).mpr ((le_lowerEnd m q).trans_lt hlow')
  have hhigh'' : z / 2 ^ q < m + 1 / 2 := (div_lt_iff₀ hpos).mpr hhigh'
  have hlt : |(m : ℚ) - z / 2 ^ q| < 1 / 2 := abs_lt.mpr ⟨by linarith, by linarith⟩
  exact hlt.ne heq

/-- The last place is the one of the digits, or the one after it just below a power of two. -/
theorem target (h : Reach m q z) (hnormal : Normal m q) (hL : Leads L z) :
    Format.binary32.targetExponent (L + 1) = q ∨ L = q + 22 ∧ m = 2 ^ 23 ∧ -149 < q := by
  obtain ⟨hlow, hhigh⟩ := h.scaled
  obtain ⟨hlt, hle, hfull⟩ := hnormal
  have hlead := hL.mul_zpow (-q)
  rw [zpow_neg, ← div_eq_mul_inv] at hlead
  have hbelow {k : ℕ} (hk : m < 2 ^ k) : L + -q < k := by
    have hk' : (m : ℚ) + 1 ≤ 2 ^ (k : ℤ) := by exact_mod_cast hk
    exact (zpow_lt_zpow_iff_right₀ one_lt_two).mp (hlead.1.trans_lt (by linarith))
  change max (L + 1 - 24) (-149) = q ∨ _
  by_cases hbits : 2 ^ 23 ≤ m
  · have hbits' : (2 : ℚ) ^ 23 ≤ m := by exact_mod_cast hbits
    have hscaled : (2 : ℚ) ^ ((22 : ℕ) : ℤ) < 2 ^ (L + -q + 1) :=
      lt_trans (by norm_num; linarith) hlead.2
    have habove : (22 : ℕ) < L + -q + 1 := (zpow_lt_zpow_iff_right₀ one_lt_two).mp hscaled
    have hL24 := hbelow hlt
    by_cases hdense : L = q + 22 ∧ -149 < q
    · have hm : m < 2 ^ 23 + 1 := by
        have hpow : (2 : ℚ) ^ (L + -q + 1) = 2 ^ 23 := by
          rw [hdense.1, ← zpow_natCast]
          congr 1
          omega
        have hm' : (m : ℚ) < 2 ^ 23 + 1 := by
          have hhigh' := hlead.2
          rw [hpow] at hhigh'
          linarith
        exact_mod_cast hm'
      exact .inr ⟨hdense.1, by omega, hdense.2⟩
    · exact .inl (by omega)
  · have hL23 := hbelow (not_le.mp hbits)
    exact .inl (by omega)

/-- **What is in reach becomes the number.** -/
theorem settled_eq (h : Reach m q z) (hm : 0 < m) (hnormal : Normal m q) (hL : Leads L z)
    (hn : Nearest n (z / 2 ^ Format.binary32.targetExponent (L + 1))) (s : Sign) :
    settled Format.binary32 s n (Format.binary32.targetExponent (L + 1)) = .finite s m q hm := by
  rcases h.target hnormal hL with hq | ⟨rfl, rfl, hdense⟩
  · rw [hq] at hn ⊢
    obtain rfl := hn.unique h.nearest
    exact Binary.settled_of_lt hm hnormal.lt
  · -- rounding carries into the next bit
    have hpos : (0 : ℚ) < 2 ^ (q - 1) := zpow_pos two_pos _
    have hpow : (2 : ℚ) ^ q = 2 * 2 ^ (q - 1) := by
      rw [← zpow_one_add₀ two_ne_zero, add_sub_cancel]
    have hlow := h.low
    have hhigh := hL.2
    have hq : Format.binary32.targetExponent (q + 22 + 1) = q - 1 := by
      change max (q + 22 + 1 - 24) (-149) = q - 1
      omega
    have hlead : q + 22 + 1 = q - 1 + (24 : ℕ) := by omega
    rw [hlead, zpow_add₀ two_ne_zero, zpow_natCast] at hhigh
    rw [lowerEnd, if_pos ⟨rfl, hdense⟩, hpow] at hlow
    rw [hq] at hn ⊢
    have hlow' : (2 : ℚ) ^ 24 - 1 / 2 ≤ z / 2 ^ (q - 1) := by
      rw [le_div_iff₀ hpos]
      push_cast at hlow
      linarith
    have hhigh' : z / 2 ^ (q - 1) < 2 ^ 24 := by
      rw [div_lt_iff₀ hpos]
      linarith
    have hfull : Nearest (2 ^ 24) (z / 2 ^ (q - 1)) := by
      refine ⟨?_, fun _ => rfl⟩
      push_cast
      exact abs_le.mpr ⟨by linarith, by linarith⟩
    obtain rfl := hn.unique hfull
    refine (Binary.settled_full).trans ?_
    rw [UnpackedFloat.finite.injEq]
    exact ⟨rfl, rfl, by omega⟩

end Reach

/-! ## Narrowing -/

/-- Many digits are not looked up. -/
theorem ofScientific_eq {M : ℕ} (hM : 2 ^ 23 ≤ M) (divided : Bool) (k : ℕ) :
    Float32.ofScientific M divided k
      = .ofModel (.ofScientific M (if divided then Int.negOfNat k else Int.ofNat k)) := by
  rw [Float32.ofScientific, dif_neg fun h => absurd h.1 (not_lt.mpr hM)]

/-- Digits with a power of two are rounded once. -/
theorem exists_ofScientific_shiftLeft {M k : ℕ} (hM : 2 ^ 23 ≤ M)
    (hL : Leads L ((M : ℚ) * 2 ^ (k : ℤ))) :
    ∃ n, Nearest n ((M : ℚ) * 2 ^ (k : ℤ) / 2 ^ Format.binary32.targetExponent (L + 1)) ∧
      Float32.ofScientific (M <<< k) false 0 = .ofModel (.pack
        (settled Format.binary32 .positive n (Format.binary32.targetExponent (L + 1)))) := by
  have hfull : 2 ^ 23 ≤ M <<< k := by
    rw [Nat.shiftLeft_eq]
    exact hM.trans (Nat.le_mul_of_pos_right M (Nat.two_pow_pos k))
  have hvalue : ((M <<< k : ℕ) : ℚ) * 10 ^ 0 = M * 2 ^ (k : ℤ) := by
    rw [zpow_natCast, pow_zero, mul_one, Nat.shiftLeft_eq]
    push_cast
    rfl
  rw [← hvalue] at hL ⊢
  obtain ⟨n, hn, hround⟩ := Binary.ofScientific_eq_of_nonneg (by omega) (Nat.zero_le _) hL
  refine ⟨n, hn, ?_⟩
  rw [ofScientific_eq hfull, ← hround]
  rfl

/-- Digits with a quotient by a power of two are rounded once: the quotient is one by a power of
ten. -/
theorem exists_ofScientific_mul_pow {M k : ℕ} (hM : 2 ^ 23 ≤ M) (hk : 0 < k)
    (hL : Leads L ((M : ℚ) * 2 ^ (-k : ℤ))) :
    ∃ n, Nearest n ((M : ℚ) * 2 ^ (-k : ℤ) / 2 ^ Format.binary32.targetExponent (L + 1)) ∧
      Float32.ofScientific (M * 5 ^ k) true k = .ofModel (.pack
        (settled Format.binary32 .positive n (Format.binary32.targetExponent (L + 1)))) := by
  have hfull : 2 ^ 23 ≤ M * 5 ^ k :=
    hM.trans (Nat.le_mul_of_pos_right M (Nat.pow_pos (by decide)))
  have hvalue : ((M * 5 ^ k : ℕ) : ℚ) / 10 ^ k = M * 2 ^ (-k : ℤ) := by
    have hten : (10 : ℚ) ^ k = 2 ^ k * 5 ^ k := by rw [← mul_pow]; norm_num
    rw [zpow_neg, zpow_natCast]
    push_cast
    rw [hten]
    field_simp
  have hlog : k ≤ (M * 5 ^ k).log2 := by
    rw [Nat.le_log2 (by omega)]
    exact (Nat.pow_le_pow_left (by decide) k).trans (Nat.le_mul_of_pos_left _ (by omega : 0 < M))
  rw [← hvalue] at hL ⊢
  obtain ⟨n, hn, hround⟩ := Binary.ofScientific_eq_of_neg (by omega) hk
    (hlog.trans (Nat.le_add_left ..)) hL
  refine ⟨n, hn, ?_⟩
  rw [ofScientific_eq hfull, if_pos rfl, Int.negOfNat_eq, ← hround]
  rfl

/-- **Many digits are rounded once.** -/
theorem exists_ofDyadic {M : ℕ} {e : ℤ} (hM : 2 ^ 23 ≤ M) (hL : Leads L ((M : ℚ) * 2 ^ e)) :
    ∃ n, Nearest n ((M : ℚ) * 2 ^ e / 2 ^ Format.binary32.targetExponent (L + 1)) ∧
      ofDyadic M e = .ofModel (.pack
        (settled Format.binary32 .positive n (Format.binary32.targetExponent (L + 1)))) := by
  rw [ofDyadic]
  split
  · next he =>
    obtain ⟨k, rfl⟩ := Int.eq_ofNat_of_zero_le he
    exact exists_ofScientific_shiftLeft hM hL
  · next he =>
    obtain ⟨k, hk⟩ : ∃ k : ℕ, e = -k := ⟨(-e).toNat, by omega⟩
    subst hk
    have hcount : (- -(k : ℤ)).toNat = k := by omega
    rw [hcount]
    exact exists_ofScientific_mul_pow hM (by omega) hL

/-- **A number of double precision becomes the number of single precision in whose reach it is.** -/
theorem ofDouble_toFloat {d : Double} (s : Sign) (hm : 0 < m) (hnormal : Normal m q) (hq : q ≤ 104)
    (h : Reach m q d.value) : ofDouble (d.toFloat s) = ofDigits s m q hm := by
  have hbits := d.toNat_toBits s
  have hleast := d.least
  have hgreatest := d.greatest
  have hfull := d.full
  have hlt := d.lt
  have hfraction : (d.toFloat s).toBits.toNat % doubleUnit = d.mantissa - 2 ^ 52 := by
    rw [hbits, doubleUnit]
    omega
  have hexponent : (d.toFloat s).toBits.toNat / doubleUnit % 0x800 = (d.exponent + 1075).toNat := by
    rw [hbits, doubleUnit]
    omega
  have hmagnitude : ofDyadic (doubleUnit + (d.mantissa - 2 ^ 52))
      (((d.exponent + 1075).toNat : ℤ) - 1075) = ofDigits .positive m q hm := by
    have hmantissa : doubleUnit + (d.mantissa - 2 ^ 52) = d.mantissa := by
      rw [doubleUnit]
      omega
    have hback : ((d.exponent + 1075).toNat : ℤ) - 1075 = d.exponent := by omega
    obtain ⟨n, hn, hround⟩ := exists_ofDyadic (by omega) d.leads
    rw [hmantissa, hback, hround, h.settled_eq hm hnormal d.leads hn, ofDigits]
  have hinf : (d.exponent + 1075).toNat ≠ 2047 := by omega
  have hzero : (d.exponent + 1075).toNat ≠ 0 := by omega
  simp only [ofDouble, hfraction, hexponent, if_neg hinf, if_neg hzero, hmagnitude]
  cases s with
  | positive =>
    refine if_neg ?_
    rw [hbits]
    change ¬ 2 ^ 63 ≤ 0 * 2 ^ 63 + _ + _
    omega
  | negative =>
    rw [if_pos]
    · exact neg_ofDigits .positive hm hnormal hq
    · rw [hbits]
      change 2 ^ 63 ≤ 1 * 2 ^ 63 + _ + _
      omega

end BlockCoding.Single
