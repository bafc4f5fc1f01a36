import BlockCoding.Proofs.Single.Rounding

/-!
# Proofs/Binary/Rounding — rounding in any binary format

An extended mantissa `Locates` the number that it was made from: it knows the whole part, and on
which side of the middle the rest is.  So rounding it gives the `Nearest` integer, the even one of
two, and rounding digits gives the nearest multiple of a power of two that leaves the format's bits
(`roundWithAccuracy_eq`); products and quotients are rounded like that (`mul_eq`, `div_eq`).
Decimal notation is read as a product or a quotient with a power of ten
(`ofScientific_eq_of_nonneg`, `ofScientific_eq_of_neg`).
-/

namespace BlockCoding.Binary

open Float.Model (UnpackedFloat Format totalExponent)
open Float.Model.UnpackedFloat (Sign ExtendedMantissa Accuracy shiftToTargetExponent
  roundWithAccuracy accuracyOfFraction divCore)

/-! ## Locating a number -/

/-- The mantissa is the whole part of the number, and the two bits say where the rest is. -/
def Locates (em : ExtendedMantissa) (y : ℚ) : Prop :=
  match em.roundBit, em.stickyBit with
  | false, false => y = em.mantissa
  | false, true => (em.mantissa : ℚ) < y ∧ y < em.mantissa + 1 / 2
  | true, false => y = em.mantissa + 1 / 2
  | true, true => (em.mantissa : ℚ) + 1 / 2 < y ∧ y < em.mantissa + 1

/-- The integer nearest to a number, the even one of two. -/
structure Nearest (n : ℕ) (y : ℚ) : Prop where
  close : |n - y| ≤ 1 / 2
  even : |n - y| = 1 / 2 → n % 2 = 0

theorem nearest_natCast (n : ℕ) : Nearest n n := ⟨by simp, by simp⟩

namespace Locates

variable {em : ExtendedMantissa} {y : ℚ}

theorem bounds (h : Locates em y) : (em.mantissa : ℚ) ≤ y ∧ y < em.mantissa + 1 := by
  obtain ⟨m, _ | _, _ | _⟩ := em <;> simp only [Locates] at h <;>
    constructor <;> linarith

theorem shiftRightOne (h : Locates em y) : Locates em.shiftRightOne (y / 2) := by
  obtain ⟨m, r, s⟩ := em
  obtain ⟨k, rfl | rfl⟩ := m.even_or_odd'
  · have hhalf : 2 * k / 2 = k := by omega
    have hbit : (2 * k % 2 != 0) = false := by simp
    cases r <;> cases s <;>
      simp only [Locates, ExtendedMantissa.shiftRightOne, hhalf, hbit, Bool.or_self, Bool.or_true,
        Bool.or_false] at h ⊢ <;>
      push_cast at h <;> (try constructor) <;> linarith
  · have hhalf : (2 * k + 1) / 2 = k := by omega
    have hbit : ((2 * k + 1) % 2 != 0) = true := by simp
    cases r <;> cases s <;>
      simp only [Locates, ExtendedMantissa.shiftRightOne, hhalf, hbit, Bool.or_self, Bool.or_true,
        Bool.or_false] at h ⊢ <;>
      push_cast at h <;> (try constructor) <;> linarith

theorem shiftRight (h : Locates em y) (k : ℕ) : Locates (em >>> k) (y / 2 ^ k) := by
  induction k with
  | zero => rwa [pow_zero, div_one]
  | succ k ih =>
    rw [Single.shiftRight_succ, pow_succ, ← div_div]
    exact ih.shiftRightOne

theorem ofMantissaAndAccuracy_exact (m : ℕ) :
    Locates (ExtendedMantissa.ofMantissaAndAccuracy m .exact) m := rfl

/-- A quotient is located by its whole part and its remainder. -/
theorem ofMantissaAndAccuracy_div (a : ℕ) {b : ℕ} (hb : 0 < b) :
    Locates (ExtendedMantissa.ofMantissaAndAccuracy (a / b) (accuracyOfFraction (a % b) b))
      (a / b : ℚ) := by
  have hb' : (0 : ℚ) < b := Nat.cast_pos.mpr hb
  have ha : (a : ℚ) / b = (a / b : ℕ) + (a % b : ℕ) / b := by
    rw [eq_comm, add_comm, div_add' _ _ _ hb'.ne', ← Nat.cast_mul, ← Nat.cast_add,
      Nat.mul_comm, Nat.mod_add_div]
  have hlt : ((a % b : ℕ) : ℚ) < b := Nat.cast_lt.mpr (Nat.mod_lt a hb)
  rw [ha, accuracyOfFraction]
  generalize a / b = w, a % b = r at *
  split
  · next hr => simp [hr, Locates, ExtendedMantissa.ofMantissaAndAccuracy]
  · next hr =>
    have hpos : (0 : ℚ) < r / b := div_pos (Nat.cast_pos.mpr (Nat.pos_of_ne_zero hr)) hb'
    have hone : (r : ℚ) / b < 1 := (div_lt_one hb').mpr hlt
    rcases lt_trichotomy (2 * r) b with h | h | h
    · have hhalf : (r : ℚ) / b < 1 / 2 := by
        rw [div_lt_div_iff₀ hb' two_pos]
        exact_mod_cast (by omega : r * 2 < 1 * b)
      rw [compare_lt_iff_lt.mpr h]
      change (w : ℚ) < _ ∧ _ < (w : ℚ) + 1 / 2
      exact ⟨by linarith, by linarith⟩
    · have hhalf : (r : ℚ) / b = 1 / 2 := by
        rw [div_eq_div_iff hb'.ne' two_ne_zero]
        exact_mod_cast (by omega : r * 2 = 1 * b)
      rw [compare_eq_iff_eq.mpr h, hhalf]
      rfl
    · have hhalf : 1 / 2 < (r : ℚ) / b := by
        rw [div_lt_div_iff₀ two_pos hb']
        exact_mod_cast (by omega : 1 * b < r * 2)
      rw [compare_gt_iff_gt.mpr h]
      change (w : ℚ) + 1 / 2 < _ ∧ _ < (w : ℚ) + 1
      exact ⟨by linarith, by linarith⟩

/-- **Rounding gives the nearest integer.** -/
theorem nearest (h : Locates em y) : Nearest em.roundedMantissa y := by
  obtain ⟨m, _ | _, _ | _⟩ := em <;> simp only [Locates] at h
  · exact h ▸ nearest_natCast m
  · have hclose : |(m : ℚ) - y| < 1 / 2 := abs_lt.mpr ⟨by linarith, by linarith⟩
    exact ⟨hclose.le, fun heq => absurd heq hclose.ne⟩
  · have hround : (ExtendedMantissa.mk m true false).roundedMantissa = m + m % 2 := rfl
    rw [hround, h]
    refine ⟨?_, fun _ => by omega⟩
    rcases Nat.mod_two_eq_zero_or_one m with hm | hm <;> rw [hm] <;> push_cast <;>
      rw [abs_le] <;> constructor <;> linarith
  · have hround : (ExtendedMantissa.mk m true true).roundedMantissa = m + 1 := rfl
    have hclose : |((m + 1 : ℕ) : ℚ) - y| < 1 / 2 := by
      push_cast
      exact abs_lt.mpr ⟨by linarith, by linarith⟩
    rw [hround]
    exact ⟨hclose.le, fun heq => absurd heq hclose.ne⟩

end Locates

/-- There is only one. -/
theorem Nearest.unique {m n : ℕ} {y : ℚ} (hm : Nearest m y) (hn : Nearest n y) : m = n := by
  have hmy := abs_le.mp hm.close
  have hny := abs_le.mp hn.close
  have hle : (m : ℚ) ≤ n + 1 ∧ (n : ℚ) ≤ m + 1 := ⟨by linarith, by linarith⟩
  have hle' : m ≤ n + 1 ∧ n ≤ m + 1 := ⟨by exact_mod_cast hle.1, by exact_mod_cast hle.2⟩
  by_contra hne
  -- neighbours that are both nearest are both even
  rcases (by omega : m = n + 1 ∨ n = m + 1) with rfl | rfl
  · push_cast at *
    have hm' := hm.even (by push_cast; rw [abs_of_nonneg] <;> linarith)
    have hn' := hn.even (by rw [abs_of_nonpos] <;> linarith)
    omega
  · push_cast at *
    have hm' := hm.even (by rw [abs_of_nonpos] <;> linarith)
    have hn' := hn.even (by push_cast; rw [abs_of_nonneg] <;> linarith)
    omega

/-! ## Rounding digits -/

variable {format : Format} {s : Sign} {m n : ℕ} {e T : ℤ}

/-- What digits are rounded to: one bit too many is given to the exponent. -/
def settled (format : Format) (s : Sign) (n : ℕ) (T : ℤ) : UnpackedFloat :=
  if h : n = 0 then .zero s
  else if n = 2 ^ format.mantissaBits then
    .finite s (2 ^ format.mantissaBitsWithoutImplicit) (T + 1) (Nat.two_pow_pos _)
  else .finite s n T (Nat.pos_of_ne_zero h)

theorem settled_full : settled format s (2 ^ format.mantissaBits) T
    = .finite s (2 ^ format.mantissaBitsWithoutImplicit) (T + 1) (Nat.two_pow_pos _) := by
  rw [settled, dif_neg (Nat.two_pow_pos _).ne', if_pos rfl]

theorem settled_of_lt (hpos : 0 < n) (hlt : n < 2 ^ format.mantissaBits) :
    settled format s n T = .finite s n T hpos := by
  rw [settled, dif_neg hpos.ne', if_neg hlt.ne]

theorem targetExponent_eq (format : Format) (m : ℕ) (e : ℤ) :
    format.targetExponent (totalExponent m e)
      = max (m.log2 + 1 + e - format.mantissaBits) format.minExponent := rfl

theorem mantissaBits_eq (format : Format) :
    format.mantissaBits = format.mantissaBitsWithoutImplicit + 1 := Nat.add_comm ..

/-- Digits that have room are not shifted. -/
theorem shiftToTargetExponent_of_lt (hn : n < 2 ^ format.mantissaBits)
    (hT : format.minExponent ≤ T) :
    shiftToTargetExponent format n T .exact = (Single.whole n, T) := by
  have hlog : n.log2 + 1 ≤ format.mantissaBits := by
    rcases n.eq_zero_or_pos with rfl | hpos
    · rw [mantissaBits_eq]
      simp
    · exact (Nat.log2_lt hpos.ne').mpr hn
  have hzero : (format.targetExponent (totalExponent n T) - T).toNat = 0 := by
    rw [targetExponent_eq]
    omega
  change (ExtendedMantissa.ofMantissaAndAccuracy n .exact >>> _, T + (_ : ℕ)) = _
  rw [hzero]
  simp [Single.shiftRight_zero, Single.whole, ExtendedMantissa.ofMantissaAndAccuracy]

/-- One bit too many is shifted out. -/
theorem shiftToTargetExponent_full (hT : format.minExponent ≤ T) :
    shiftToTargetExponent format (2 ^ format.mantissaBits) T .exact
      = (Single.whole (2 ^ format.mantissaBitsWithoutImplicit), T + 1) := by
  have hone : (format.targetExponent (totalExponent (2 ^ format.mantissaBits) T) - T).toNat
      = 1 := by
    rw [targetExponent_eq, Nat.log2_two_pow]
    omega
  change (Single.whole (2 ^ format.mantissaBits) >>> _, T + (_ : ℕ)) = _
  rw [hone, mantissaBits_eq, pow_succ, ← pow_one 2, Single.whole_shiftRight]
  simp

theorem mantissa_ofMantissaAndAccuracy (m : ℕ) (accuracy : Accuracy) :
    (ExtendedMantissa.ofMantissaAndAccuracy m accuracy).mantissa = m := by
  cases accuracy with
  | exact => rfl
  | inexact o => cases o <;> rfl

/-- A mantissa shifted to its target has the bits of the format, and may be rounded up to one
more. -/
theorem roundedMantissa_shiftRight_le (m : ℕ) (accuracy : Accuracy) {k : ℕ}
    (hk : format.targetExponent (totalExponent m e) = e + k) :
    (ExtendedMantissa.ofMantissaAndAccuracy m accuracy >>> k).roundedMantissa
      ≤ 2 ^ format.mantissaBits := by
  have hbits : m.log2 + 1 ≤ format.mantissaBits + k := by
    rw [targetExponent_eq] at hk
    omega
  have hlt : m / 2 ^ k < 2 ^ format.mantissaBits := by
    rw [Nat.div_lt_iff_lt_mul (Nat.two_pow_pos k), ← pow_add]
    exact Nat.lt_log2_self.trans_le (Nat.pow_le_pow_right two_pos hbits)
  have hrounded := (Single.roundedMantissa_le
    (ExtendedMantissa.ofMantissaAndAccuracy m accuracy >>> k)).2
  rw [Single.mantissa_shiftRight, mantissa_ofMantissaAndAccuracy] at hrounded
  omega

/-- **Digits are rounded to the nearest multiple of the power of two that leaves the format's
bits.** -/
theorem roundWithAccuracy_eq {accuracy : Accuracy} {y : ℚ}
    (hy : Locates (ExtendedMantissa.ofMantissaAndAccuracy m accuracy) y)
    (hT : format.targetExponent (totalExponent m e) = T) (he : e ≤ T) :
    ∃ n, Nearest n (y * 2 ^ (e - T)) ∧
      roundWithAccuracy format s m e accuracy = settled format s n T := by
  obtain ⟨k, rfl⟩ : ∃ k : ℕ, T = e + k := ⟨(T - e).toNat, by omega⟩
  have hshift : shiftToTargetExponent format m e accuracy
      = (ExtendedMantissa.ofMantissaAndAccuracy m accuracy >>> k, e + k) := by
    change (ExtendedMantissa.ofMantissaAndAccuracy m accuracy >>> _, e + (_ : ℕ)) = _
    rw [hT, add_sub_cancel_left, Int.toNat_natCast]
  have hlocates := hy.shiftRight k
  have hle := roundedMantissa_shiftRight_le m accuracy hT
  generalize hem : ExtendedMantissa.ofMantissaAndAccuracy m accuracy >>> k = em at *
  have hmin : format.minExponent ≤ e + k := by
    rw [← hT, targetExponent_eq]
    exact le_max_right ..
  refine ⟨em.roundedMantissa, ?_, ?_⟩
  · have hscale : y * 2 ^ (e - (e + k)) = y / 2 ^ k := by
      rw [sub_add_cancel_left, zpow_neg, zpow_natCast, div_eq_mul_inv]
    rw [hscale]
    exact hlocates.nearest
  · rw [roundWithAccuracy, hshift]
    dsimp only
    rcases hle.lt_or_eq with hlt | heq
    · rw [shiftToTargetExponent_of_lt hlt hmin]
      rcases em.roundedMantissa.eq_zero_or_pos with hzero | hpos
      · rw [hzero]
        rfl
      · rw [settled_of_lt hpos hlt]
        exact dif_neg hpos.ne'
    · rw [heq, shiftToTargetExponent_full hmin, settled_full]
      exact dif_neg (Nat.two_pow_pos _).ne'

/-! ## Rounding by the leading bit -/

/-- The leading bit of a positive number stands at `2 ^ L`. -/
def Leads (L : ℤ) (x : ℚ) : Prop := (2 : ℚ) ^ L ≤ x ∧ x < 2 ^ (L + 1)

variable {L : ℤ} {x y : ℚ}

theorem Leads.unique {L' : ℤ} (h : Leads L x) (h' : Leads L' x) : L = L' := by
  have hlt : L < L' + 1 := (zpow_lt_zpow_iff_right₀ one_lt_two).mp (h.1.trans_lt h'.2)
  have hlt' : L' < L + 1 := (zpow_lt_zpow_iff_right₀ one_lt_two).mp (h'.1.trans_lt h.2)
  omega

theorem Leads.pos (h : Leads L x) : 0 < x := (zpow_pos two_pos L).trans_le h.1

/-- Multiplying by a power of two moves the leading bit. -/
theorem Leads.mul_zpow (h : Leads L x) (e : ℤ) : Leads (L + e) (x * 2 ^ e) := by
  have hpos : (0 : ℚ) < 2 ^ e := zpow_pos two_pos e
  rw [Leads, zpow_add₀ two_ne_zero, add_right_comm, zpow_add₀ two_ne_zero]
  exact ⟨mul_le_mul_of_nonneg_right h.1 hpos.le, mul_lt_mul_of_pos_right h.2 hpos⟩

/-- A number between a positive integer and the next one has the leading bit of the integer. -/
theorem leads_of_floor (hm : 0 < m) (hlow : (m : ℚ) ≤ y) (hhigh : y < m + 1) :
    Leads m.log2 y := by
  have hfirst : ((2 ^ m.log2 : ℕ) : ℚ) ≤ m := Nat.cast_le.mpr (Nat.log2_self_le hm.ne')
  have hlast : ((m + 1 : ℕ) : ℚ) ≤ (2 ^ (m.log2 + 1) : ℕ) := Nat.cast_le.mpr Nat.lt_log2_self
  push_cast at hfirst hlast
  exact ⟨(zpow_natCast _ _).trans_le (hfirst.trans hlow),
    (hhigh.trans_le hlast).trans_eq (zpow_natCast _ _).symm⟩

theorem leads_natCast (hm : 0 < m) : Leads m.log2 (m : ℚ) :=
  leads_of_floor hm le_rfl (lt_add_one _)

/-- Every positive number has a leading bit. -/
theorem exists_leads (hx : 0 < x) : ∃ L, Leads L x := by
  obtain ⟨L, hlow, hhigh⟩ := exists_mem_Ico_zpow (y := (2 : ℚ)) hx one_lt_two
  exact ⟨L, hlow, hhigh⟩

/-- The target of digits depends only on the leading bit of the number that they locate. -/
theorem targetExponent_of_leads {accuracy : Accuracy}
    (hy : Locates (ExtendedMantissa.ofMantissaAndAccuracy m accuracy) y)
    (hL : Leads L (y * 2 ^ e)) (he : e ≤ format.targetExponent (L + 1)) :
    format.targetExponent (totalExponent m e) = format.targetExponent (L + 1) := by
  have hbounds := hy.bounds
  rw [mantissa_ofMantissaAndAccuracy] at hbounds
  rw [targetExponent_eq]
  change _ = max (L + 1 - format.mantissaBits) _
  change e ≤ max (L + 1 - format.mantissaBits) _ at he
  rcases m.eq_zero_or_pos with rfl | hm
  · -- nothing is left of the mantissa, so the number is below the least exponent
    have hone : y < 1 := by simpa using hbounds.2
    have hbelow : (2 : ℚ) ^ L < 2 ^ e :=
      hL.1.trans_lt ((mul_lt_mul_of_pos_right hone (zpow_pos two_pos e)).trans_eq (one_mul _))
    have hlt : L < e := (zpow_lt_zpow_iff_right₀ one_lt_two).mp hbelow
    have hbits := mantissaBits_eq format
    have hlog : (Nat.log2 0 : ℤ) = 0 := rfl
    omega
  · have hleads := (leads_of_floor hm hbounds.1 hbounds.2).mul_zpow e
    rw [hL.unique hleads]
    congr 1
    omega

/-- **A number is rounded to the nearest multiple of the power of two that its leading bit asks
for.** -/
theorem roundWithAccuracy_of_leads {accuracy : Accuracy}
    (hy : Locates (ExtendedMantissa.ofMantissaAndAccuracy m accuracy) y)
    (hL : Leads L (y * 2 ^ e)) (he : e ≤ format.targetExponent (L + 1)) :
    ∃ n, Nearest n (y * 2 ^ e / 2 ^ format.targetExponent (L + 1)) ∧
      roundWithAccuracy format s m e accuracy
        = settled format s n (format.targetExponent (L + 1)) := by
  obtain ⟨n, hn, hround⟩ := roundWithAccuracy_eq (s := s) hy (targetExponent_of_leads hy hL he) he
  rw [zpow_sub₀ two_ne_zero, ← mul_div_assoc] at hn
  exact ⟨n, hn, hround⟩

/-! ## Products and quotients -/

variable {m₁ m₂ : ℕ} {e₁ e₂ : ℤ} (s₁ s₂ : Sign) (h₁ : 0 < m₁) (h₂ : 0 < m₂)

/-- The leading bit of a product stands at least where the leading bits say. -/
theorem le_of_leads_mul {L₁ L₂ : ℤ} (hx : Leads L₁ x) (hy : Leads L₂ y) (hL : Leads L (x * y)) :
    L₁ + L₂ ≤ L := by
  have hlow : (2 : ℚ) ^ (L₁ + L₂) ≤ x * y := by
    rw [zpow_add₀ two_ne_zero]
    exact mul_le_mul hx.1 hy.1 (zpow_pos two_pos _).le hx.pos.le
  have hlt := (zpow_lt_zpow_iff_right₀ one_lt_two).mp (hlow.trans_lt hL.2)
  omega

/-- **The product of two numbers is rounded.** -/
theorem mul_eq (hL : Leads L ((m₁ * 2 ^ e₁) * (m₂ * 2 ^ e₂)))
    (he : e₁ + e₂ ≤ format.targetExponent (L + 1)) :
    ∃ n, Nearest n ((m₁ * 2 ^ e₁) * (m₂ * 2 ^ e₂) / 2 ^ format.targetExponent (L + 1)) ∧
      UnpackedFloat.mul format (.finite s₁ m₁ e₁ h₁) (.finite s₂ m₂ e₂ h₂)
        = settled format (s₁ * s₂) n (format.targetExponent (L + 1)) := by
  have hvalue : ((m₁ * m₂ : ℕ) : ℚ) * 2 ^ (e₁ + e₂) = (m₁ * 2 ^ e₁) * (m₂ * 2 ^ e₂) := by
    rw [zpow_add₀ two_ne_zero]
    push_cast
    ring
  rw [← hvalue] at hL ⊢
  exact roundWithAccuracy_of_leads (Locates.ofMantissaAndAccuracy_exact _) hL he

/-- The leading bit of a quotient stands where the difference of the leading bits says, or one
place below. -/
theorem le_of_leads_div {L₁ L₂ : ℤ} (hx : Leads L₁ x) (hy : Leads L₂ y) (hL : Leads L (x / y)) :
    L₁ - L₂ ≤ L + 1 := by
  have hlow : (2 : ℚ) ^ (L₁ - (L₂ + 1)) < x / y := by
    rw [zpow_sub₀ two_ne_zero, div_lt_div_iff₀ (zpow_pos two_pos _) hy.pos]
    exact mul_lt_mul' hx.1 hy.2 hy.pos.le hx.pos
  have hlt := (zpow_lt_zpow_iff_right₀ one_lt_two).mp (hlow.trans hL.2)
  omega

/-- **The quotient of two numbers is rounded.** -/
theorem div_eq (hL : Leads L ((m₁ * 2 ^ e₁) / (m₂ * 2 ^ e₂))) :
    ∃ n, Nearest n ((m₁ * 2 ^ e₁) / (m₂ * 2 ^ e₂) / 2 ^ format.targetExponent (L + 1)) ∧
      UnpackedFloat.div format (.finite s₁ m₁ e₁ h₁) (.finite s₂ m₂ e₂ h₂)
        = settled format (s₁ / s₂) n (format.targetExponent (L + 1)) := by
  obtain ⟨t, ht⟩ : ∃ t, t = min (e₁ - e₂)
    (format.targetExponent (totalExponent m₁ e₁ - totalExponent m₂ e₂)) := ⟨_, rfl⟩
  have hle : t ≤ format.targetExponent (L + 1) := by
    have hleads := le_of_leads_div ((leads_natCast h₁).mul_zpow e₁) ((leads_natCast h₂).mul_zpow e₂)
      hL
    rw [ht]
    refine (min_le_right _ _).trans (max_le_max_right _ ?_)
    simp only [totalExponent]
    omega
  have hvalue : ((m₁ <<< (e₁ - e₂ - t).toNat : ℕ) : ℚ) / m₂ * 2 ^ t
      = (m₁ * 2 ^ e₁) / (m₂ * 2 ^ e₂) := by
    obtain ⟨k, hk⟩ : ∃ k : ℕ, e₁ = e₂ + t + k := ⟨(e₁ - e₂ - t).toNat, by omega⟩
    have hcount : (e₂ + t + k - e₂ - t).toNat = k := by omega
    have hpos : (m₂ : ℚ) ≠ 0 := Nat.cast_ne_zero.mpr h₂.ne'
    have hpow : (2 : ℚ) ^ e₂ ≠ 0 := (zpow_pos two_pos e₂).ne'
    rw [hk, hcount, Nat.shiftLeft_eq, zpow_add₀ two_ne_zero, zpow_add₀ two_ne_zero, zpow_natCast]
    push_cast
    field_simp
  have hlocates := Locates.ofMantissaAndAccuracy_div (m₁ <<< (e₁ - e₂ - t).toNat) h₂
  rw [← hvalue] at hL ⊢
  rw [UnpackedFloat.div, divCore]
  simp only [← ht]
  exact roundWithAccuracy_of_leads hlocates hL hle

/-- **Digits are rounded.** -/
theorem round_eq (hm : 0 < m) (hL : Leads L ((m : ℚ) * 2 ^ e)) :
    ∃ n, Nearest n ((m : ℚ) * 2 ^ e / 2 ^ format.targetExponent (L + 1)) ∧
      UnpackedFloat.round format s m e = settled format s n (format.targetExponent (L + 1)) := by
  have hT : format.targetExponent (totalExponent m e) = format.targetExponent (L + 1) := by
    rw [hL.unique ((leads_natCast hm).mul_zpow e), totalExponent]
    congr 1
    omega
  obtain ⟨k, hk⟩ : ∃ k, k = (e - format.targetExponent (L + 1)).toNat := ⟨_, rfl⟩
  have hvalue : ((m <<< k : ℕ) : ℚ) * 2 ^ (e - k) = m * 2 ^ e := by
    rw [Nat.shiftLeft_eq, zpow_sub₀ two_ne_zero, zpow_natCast]
    push_cast
    field_simp
  rw [← hvalue] at hL ⊢
  rw [UnpackedFloat.round, hT]
  simp only [UnpackedFloat.decreaseExponent, ← hk]
  exact roundWithAccuracy_of_leads (Locates.ofMantissaAndAccuracy_exact _) hL (by omega)

/-! ## Decimal notation -/

variable {k : ℕ}

/-- **Digits before zeros are rounded.** -/
theorem ofScientific_eq_of_nonneg (hm : 0 < m) (hk : k ≤ 2 ^ format.exponentBits)
    (hL : Leads L ((m : ℚ) * 10 ^ k)) :
    ∃ n, Nearest n ((m : ℚ) * 10 ^ k / 2 ^ format.targetExponent (L + 1)) ∧
      UnpackedFloat.ofScientific format m k
        = settled format .positive n (format.targetExponent (L + 1)) := by
  have hshift : 0 < m <<< format.mantissaBits := by
    rw [Nat.shiftLeft_eq]
    exact Nat.mul_pos hm (Nat.two_pow_pos _)
  have hvalue : ((m <<< format.mantissaBits : ℕ) * 2 ^ (-format.mantissaBits : ℤ) : ℚ)
      * ((10 ^ k : ℕ) * 2 ^ (0 : ℤ)) = m * 10 ^ k := by
    rw [zpow_neg, zpow_natCast, zpow_zero, Nat.shiftLeft_eq]
    push_cast
    field_simp
  have hexponents : -(format.mantissaBits : ℤ) + 0 ≤ format.targetExponent (L + 1) := by
    have hone : (2 : ℚ) ^ (0 : ℤ) ≤ m * 10 ^ k := by
      rw [zpow_zero]
      exact one_le_mul_of_one_le_of_one_le (Nat.one_le_cast.mpr hm) (one_le_pow₀ (by norm_num))
    have hnonneg := (zpow_lt_zpow_iff_right₀ one_lt_two).mp (hone.trans_lt hL.2)
    change _ ≤ max (L + 1 - format.mantissaBits) _
    omega
  have hsmall : ¬ (k : ℤ) > 2 ^ format.exponentBits := not_lt.mpr (by exact_mod_cast hk)
  have hlarge : ¬ (k : ℤ) < -(2 ^ format.exponentBits + (m.log2 : ℤ)) := by
    have hpow : (0 : ℤ) < 2 ^ format.exponentBits := pow_pos two_pos _
    omega
  rw [← hvalue] at hL ⊢
  rw [UnpackedFloat.ofScientific, dif_neg hm.ne', if_neg hsmall, if_neg hlarge,
    if_pos (Int.natCast_nonneg k)]
  exact mul_eq .positive .positive hshift (Nat.pow_pos (by decide)) hL hexponents

/-- **Digits with a fraction are rounded.** -/
theorem ofScientific_eq_of_neg (hm : 0 < m) (hpos : 0 < k)
    (hk : k ≤ 2 ^ format.exponentBits + m.log2) (hL : Leads L ((m : ℚ) / 10 ^ k)) :
    ∃ n, Nearest n ((m : ℚ) / 10 ^ k / 2 ^ format.targetExponent (L + 1)) ∧
      UnpackedFloat.ofScientific format m (-k)
        = settled format .positive n (format.targetExponent (L + 1)) := by
  have hvalue : (m * 2 ^ (0 : ℤ) : ℚ) / ((10 ^ k : ℕ) * 2 ^ (0 : ℤ)) = m / 10 ^ k := by
    rw [zpow_zero]
    push_cast
    rw [mul_one, mul_one]
  have hsmall : ¬ (-k : ℤ) > 2 ^ format.exponentBits := by
    have hpow : (0 : ℤ) < 2 ^ format.exponentBits := pow_pos two_pos _
    omega
  have hlarge : ¬ (-k : ℤ) < -(2 ^ format.exponentBits + (m.log2 : ℤ)) := by
    have hk' : (k : ℤ) ≤ 2 ^ format.exponentBits + (m.log2 : ℤ) := by exact_mod_cast hk
    omega
  have hcount : (- -(k : ℤ)).toNat = k := by omega
  rw [← hvalue] at hL ⊢
  rw [UnpackedFloat.ofScientific, dif_neg hm.ne', if_neg hsmall, if_neg hlarge,
    if_neg (by omega)]
  simp only [hcount]
  exact div_eq .positive .positive hm (Nat.pow_pos (by decide)) hL

end BlockCoding.Binary
