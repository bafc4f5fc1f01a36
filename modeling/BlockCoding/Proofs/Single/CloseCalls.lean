import Mathlib

/-!
# Proofs/Single/CloseCalls — short decimals and the middles between numbers

The reach of a number ends half way to its neighbours, at odd multiples of a power of two.  A
decimal whose grid is as coarse as that power is not close to such a middle unless it is the middle,
or the middle is one of three (`eq_or_mem_closeCalls`).

Up to a common factor the question is which multiples of one integer come close to odd multiples of
another one (`Approach.Close`).  The multiples of a factor by `s` leave a remainder for each step of
the factor; where that is small, a range of factors meets few multiples of the period, and
`Approach.narrow` keeps what is near the only one of the right parity.  The continued fraction gives
the `s` for which it is small.
-/

namespace BlockCoding.Single

/-- The multiples of `step` that come within `slack` of an odd multiple of `period`. -/
structure Approach where
  step : ℕ
  period : ℕ
  slack : ℕ
  deriving Repr

namespace Approach

variable (a : Approach)

/-- The multiple comes close to an odd one. -/
def Close (c B : ℤ) : Prop := B % 2 = 1 ∧ |c * a.step - B * a.period| ≤ a.slack

/-- The remainder that each step leaves when multiplied by `s`. -/
def remainder (s : ℤ) : ℤ := s * a.step % (2 * a.period)

/-- How far off a close multiple may be when multiplied by `s`. -/
def tolerance (s : ℤ) : ℤ := s.natAbs * a.slack

/-- The first multiple of the period, among those of the parity of `s`, that may be met from `low`
on. -/
def first (low s : ℤ) : ℤ :=
  let next := -((a.tolerance s - low * a.remainder s) / a.period)
  next + (next - s) % 2

/-- The factors of a range that may come close, after a look at their multiples by `s`: if these
meet only one multiple of the period, a window around it is left. -/
def narrow (range : ℤ × ℤ) (s : ℤ) : ℤ × ℤ :=
  let r := a.remainder s
  let y := a.first range.1 s
  if 0 < r ∧ range.2 * r + a.tolerance s < (y + 2) * a.period then
    (max range.1 (-((a.tolerance s - y * a.period) / r)),
      min range.2 ((y * a.period + a.tolerance s) / r))
  else range

/-- The factors of a range that may come close, after a look at several multiples. -/
def survivors (range : ℤ × ℤ) : List ℤ → ℤ × ℤ
  | [] => range
  | s :: later => if range.2 < range.1 then range else survivors (a.narrow range s) later

/-- The coefficients of the divisions that lead to the common divisor of two numbers, the last one
first. -/
def coefficients : ℕ → ℤ → ℤ → ℤ → ℤ → List ℤ → List ℤ
  | 0, _, _, _, _, found => found
  | fuel + 1, r, r', s, s', found =>
    if r' = 0 then found
    else coefficients fuel r' (r % r') s' (s - r / r' * s') (s' :: found)

/-- What the multiples are multiplied by. -/
def multipliers : List ℤ := coefficients 28 (2 * a.period) (a.remainder 1) 0 1 []

variable {a} {c B : ℤ} {range : ℤ × ℤ}

namespace Close

/-- Multiplied by `s`, a close multiple is near a multiple of the period, of the parity of `s`. -/
theorem exists_near (h : a.Close c B) (s : ℤ) :
    ∃ y, (y - s) % 2 = 0 ∧ |c * a.remainder s - y * a.period| ≤ a.tolerance s := by
  obtain ⟨hodd, hclose⟩ := h
  obtain ⟨b, rfl⟩ : ∃ b, B = 2 * b + 1 := ⟨B / 2, by omega⟩
  have hdiv := Int.emod_add_mul_ediv (s * a.step) (2 * a.period)
  refine ⟨s * (2 * b + 1) - 2 * (s * a.step / (2 * a.period)) * c, ?_, ?_⟩
  · have heven : s * (2 * b + 1) - 2 * (s * a.step / (2 * a.period)) * c - s
        = 2 * (s * b - s * a.step / (2 * a.period) * c) := by ring
    rw [heven]
    exact Int.mul_emod_right ..
  · have hoff : c * a.remainder s
          - (s * (2 * b + 1) - 2 * (s * a.step / (2 * a.period)) * c) * a.period
        = s * (c * a.step - (2 * b + 1) * a.period) := by
      rw [remainder]
      linear_combination c * hdiv
    rw [hoff, abs_mul, tolerance, ← Int.natCast_natAbs]
    exact mul_le_mul_of_nonneg_left hclose (Int.natCast_nonneg _)

/-- **Nothing that comes close is lost.** -/
theorem narrow (h : a.Close c B) (hpos : 0 < a.period) (hlow : range.1 ≤ c) (hhigh : c ≤ range.2)
    (s : ℤ) : (a.narrow range s).1 ≤ c ∧ c ≤ (a.narrow range s).2 := by
  have hpos' : (0 : ℤ) < a.period := Int.natCast_pos.mpr hpos
  obtain ⟨y, hparity, hnear⟩ := h.exists_near s
  obtain ⟨hbelow, habove⟩ := abs_le.mp hnear
  have hnonneg : 0 ≤ a.remainder s := Int.emod_nonneg _ (by omega)
  have hfirst : a.first range.1 s ≤ y := by
    have hle : range.1 * a.remainder s ≤ c * a.remainder s :=
      mul_le_mul_of_nonneg_right hlow hnonneg
    have hnext : -y ≤ (a.tolerance s - range.1 * a.remainder s) / a.period := by
      rw [Int.le_ediv_iff_mul_le hpos']
      linarith
    rw [first]
    omega
  rw [Approach.narrow]
  split_ifs with hroom
  · obtain ⟨hr, hroom⟩ := hroom
    have hle : c * a.remainder s ≤ range.2 * a.remainder s :=
      mul_le_mul_of_nonneg_right hhigh hnonneg
    have hlast : y < a.first range.1 s + 2 := by
      refine lt_of_mul_lt_mul_right ?_ hpos'.le
      linarith
    obtain rfl : y = a.first range.1 s := by
      have hfirst_parity : (a.first range.1 s - s) % 2 = 0 := by
        rw [first]
        omega
      omega
    have hstart : -c ≤ (a.tolerance s - a.first range.1 s * a.period) / a.remainder s := by
      rw [Int.le_ediv_iff_mul_le hr]
      linarith
    have hend : c ≤ (a.first range.1 s * a.period + a.tolerance s) / a.remainder s := by
      rw [Int.le_ediv_iff_mul_le hr]
      linarith
    exact ⟨max_le hlow (by omega), le_min hhigh hend⟩
  · exact ⟨hlow, hhigh⟩

theorem survivors (h : a.Close c B) (hpos : 0 < a.period) (later : List ℤ) (hlow : range.1 ≤ c)
    (hhigh : c ≤ range.2) :
    (a.survivors range later).1 ≤ c ∧ c ≤ (a.survivors range later).2 := by
  induction later generalizing range with
  | nil => exact ⟨hlow, hhigh⟩
  | cons s later ih =>
    rw [Approach.survivors]
    split_ifs
    · exact ⟨hlow, hhigh⟩
    · obtain ⟨hlow', hhigh'⟩ := h.narrow hpos hlow hhigh s
      exact ih hlow' hhigh'

/-- If little is close, the odd multiple is known. -/
theorem eq_ediv (h : a.Close c B) (hslack : 2 * a.slack < a.period) :
    B = (2 * (c * a.step) + a.period) / (2 * a.period) := by
  have hslack' : 2 * (a.slack : ℤ) < a.period := by exact_mod_cast hslack
  obtain ⟨hlow, hhigh⟩ := abs_le.mp h.2
  symm
  rw [Int.ediv_eq_iff_of_pos (by omega)]
  constructor <;> linarith

end Close

end Approach

/-! ## Decimals and powers of two -/

/-- The finest grid that is as coarse as `2 ^ j`. -/
def grid (j : ℤ) : ℤ := -(-30103 * j / 100000)

/-- A step of the grid and the power of two, up to a common factor, and how close is close. -/
def approach (j : ℤ) : Approach :=
  let period := 5 ^ (-grid j).toNat * 2 ^ (j - grid j).toNat
  { step := 5 ^ (grid j).toNat * 2 ^ (grid j - j).toNat
    period := period
    slack := 17 * period / 2 ^ 31 }

/-- The odd multiples of `2 ^ j` where the reach of a number ends: there are 25 bits, unless it is
the least power. -/
structure IsMiddle (j : ℤ) (B : ℕ) : Prop where
  least : -150 ≤ j
  greatest : j ≤ 103
  odd : B % 2 = 1
  lt : B < 2 ^ 25
  full : j = -150 ∨ 2 ^ 24 - 1 ≤ B

/-- The decimals on the grid between the first middle and the last one. -/
def decimals (j : ℤ) : ℤ × ℤ :=
  let a := approach j
  (((if j = -150 then 1 else 2 ^ 24 - 1) * a.period - a.slack) / a.step,
    (2 ^ 25 * a.period + a.slack) / a.step)

/-- The middles that a decimal is close to. -/
def closeCalls : List (ℤ × ℤ) := [(-108, 22841339), (-107, 22841339), (-50, 28874659)]

/-- Whether there are no others: no decimal is left, or the one that is left has been listed; or
only what is equal counts as close. -/
def isSurveyed (j : ℤ) : Bool :=
  let a := approach j
  let left := a.survivors (decimals j) a.multipliers
  a.slack = 0 && -34 ≤ j && j ≤ 33 || left.2 < left.1 ||
    left.1 = left.2 && 2 * a.slack < a.period &&
      closeCalls.contains (j, (2 * (left.1 * a.step) + a.period) / (2 * a.period))

/-- Whether the next grid is too fine. -/
def isCoarse (j : ℤ) : Bool :=
  (approach j).step * 2 ^ 26 + 10 * (approach j).period < 10 * (approach j).period * 2 ^ 26

/-- **All powers of two are surveyed.** -/
theorem surveyed : ∀ i : Fin 254, (isSurveyed (i - 150) && isCoarse (i - 150)) = true := by
  decide +kernel

variable {j k : ℤ} {B c : ℕ}

theorem isSurveyed_of_le (hlow : -150 ≤ j) (hhigh : j ≤ 103) :
    isSurveyed j = true ∧ isCoarse j = true := by
  have h := surveyed ⟨(j + 150).toNat, by omega⟩
  have hj : (((j + 150).toNat : ℕ) : ℤ) - 150 = j := by omega
  rwa [hj, Bool.and_eq_true] at h

theorem step_pos (j : ℤ) : 0 < (approach j).step :=
  Nat.mul_pos (Nat.pow_pos (by decide)) (Nat.pow_pos (by decide))

theorem period_pos (j : ℤ) : 0 < (approach j).period :=
  Nat.mul_pos (Nat.pow_pos (by decide)) (Nat.pow_pos (by decide))

/-- The step and the period are as a step of the grid and the power of two. -/
theorem step_mul_zpow (j : ℤ) :
    ((approach j).step : ℚ) * 2 ^ j = (approach j).period * 10 ^ grid j := by
  have hpow {x : ℚ} (hx : x ≠ 0) (i : ℤ) : x ^ i.toNat = x ^ (-i).toNat * x ^ i := by
    rw [← zpow_natCast, ← zpow_natCast, ← zpow_add₀ hx]
    congr 1
    omega
  have hten : (10 : ℚ) ^ grid j = 5 ^ grid j * 2 ^ grid j := by
    rw [← mul_zpow]
    norm_num
  have hneg : -(grid j - j) = j - grid j := by ring
  simp only [approach]
  push_cast
  rw [hpow (by norm_num) (grid j), hpow two_ne_zero (grid j - j), hneg, hten,
    zpow_sub₀ two_ne_zero]
  field_simp

/-- A grid that is almost as coarse is as coarse as this one. -/
theorem grid_le (hlow : -150 ≤ j) (hhigh : j ≤ 103)
    (hk : (2 : ℚ) ^ j * (1 - 1 / 2 ^ 26) ≤ 10 ^ k) : grid j ≤ k := by
  by_contra hlt
  have hfine : (10 : ℚ) ^ k ≤ 10 ^ (grid j - 1) := zpow_le_zpow_right₀ (by norm_num) (by omega)
  have hperiod : (0 : ℚ) < 10 * (approach j).period :=
    mul_pos (by norm_num) (Nat.cast_pos.mpr (period_pos j))
  have hpow : (0 : ℚ) < 2 ^ j := zpow_pos two_pos j
  have hstep : ((approach j).step : ℚ) * 2 ^ j = 10 * (approach j).period * 10 ^ (grid j - 1) := by
    rw [step_mul_zpow, zpow_sub_one₀ (by norm_num)]
    ring
  have hcoarse : ((approach j).step : ℚ) * 2 ^ 26 + 10 * (approach j).period
      < 10 * (approach j).period * 2 ^ 26 := by
    exact_mod_cast of_decide_eq_true (isSurveyed_of_le hlow hhigh).2
  have hbelow : 10 * ((approach j).period : ℚ) * (10 ^ (grid j - 1) * 2 ^ 26 + 2 ^ j)
      < 10 * (approach j).period * (2 ^ j * 2 ^ 26) := by
    linarith [mul_lt_mul_of_pos_right hcoarse hpow]
  linarith [lt_of_mul_lt_mul_left hbelow hperiod.le]

/-- A decimal that is close to a middle is close up to the common factor. -/
theorem close_of_abs_le (hodd : B % 2 = 1) {i : ℕ}
    (hclose : |(c : ℚ) * 10 ^ (grid j + i) - B * 2 ^ j| ≤ 17 / 2 ^ 31 * 2 ^ j) :
    (approach j).Close (c * 10 ^ i : ℕ) B := by
  refine ⟨by omega, ?_⟩
  have hpow : (0 : ℚ) < 2 ^ j := zpow_pos two_pos j
  have hperiod : (0 : ℚ) ≤ (approach j).period := Nat.cast_nonneg _
  obtain ⟨z, hz⟩ : ∃ z, z = ((c * 10 ^ i : ℕ) : ℤ) * (approach j).step - B * (approach j).period :=
    ⟨_, rfl⟩
  have hoff : (z : ℚ) * 2 ^ j
      = (c * 10 ^ (grid j + i) - B * 2 ^ j) * (approach j).period := by
    have hstep := step_mul_zpow j
    rw [hz, zpow_add₀ (by norm_num), zpow_natCast]
    push_cast
    linear_combination (c * 10 ^ i : ℚ) * hstep
  have hle : |(z : ℚ)| * 2 ^ 31 ≤ 17 * (approach j).period := by
    refine le_of_mul_le_mul_right ?_ hpow
    calc |(z : ℚ)| * 2 ^ 31 * 2 ^ j = |(z : ℚ) * 2 ^ j| * 2 ^ 31 := by
          rw [abs_mul, abs_of_pos hpow]
          ring
      _ = |(c * 10 ^ (grid j + i) - B * 2 ^ j : ℚ)| * (approach j).period * 2 ^ 31 := by
          rw [hoff, abs_mul, abs_of_nonneg hperiod]
      _ ≤ 17 / 2 ^ 31 * 2 ^ j * (approach j).period * 2 ^ 31 := by gcongr
      _ = 17 * (approach j).period * 2 ^ j := by ring
  have hnat : z.natAbs ≤ 17 * (approach j).period / 2 ^ 31 := by
    rw [Nat.le_div_iff_mul_le (by decide)]
    rw [← Int.cast_abs, Int.abs_eq_natAbs] at hle
    exact_mod_cast hle
  rw [← hz, Int.abs_eq_natAbs]
  exact Int.ofNat_le.mpr hnat

/-- It is on the grid between the first middle and the last one. -/
theorem mem_decimals (h : IsMiddle j B) {c : ℤ} (hclose : (approach j).Close c B) :
    (decimals j).1 ≤ c ∧ c ≤ (decimals j).2 := by
  have hstep : (0 : ℤ) < (approach j).step := Int.natCast_pos.mpr (step_pos j)
  have hperiod : (0 : ℤ) ≤ (approach j).period := Int.natCast_nonneg _
  obtain ⟨hlow, hhigh⟩ := abs_le.mp hclose.2
  have hfirst : (if j = -150 then 1 else 2 ^ 24 - 1 : ℤ) ≤ B := by
    have hodd := h.odd
    have hfull := h.full
    split <;> omega
  have hlast : (B : ℤ) ≤ 2 ^ 25 := by
    have hlt := h.lt
    omega
  have hfirst' := mul_le_mul_of_nonneg_right hfirst hperiod
  have hlast' := mul_le_mul_of_nonneg_right hlast hperiod
  refine ⟨Int.le_of_mul_le_mul_right ((Int.ediv_mul_le _ hstep.ne').trans ?_) hstep,
    (Int.le_ediv_iff_mul_le hstep).mpr ?_⟩ <;> linarith

/-- **A decimal that is close to a middle is the middle, or the middle is one of three.** -/
theorem eq_or_mem_closeCalls (h : IsMiddle j B) (hk : (2 : ℚ) ^ j * (1 - 1 / 2 ^ 26) ≤ 10 ^ k)
    (hclose : |(c : ℚ) * 10 ^ k - B * 2 ^ j| ≤ 17 / 2 ^ 31 * 2 ^ j) :
    ((c : ℚ) * 10 ^ k = B * 2 ^ j ∧ -34 ≤ j ∧ j ≤ 33) ∨ (j, (B : ℤ)) ∈ closeCalls := by
  have hgrid := grid_le h.least h.greatest hk
  obtain ⟨i, rfl⟩ : ∃ i : ℕ, k = grid j + i := ⟨(k - grid j).toNat, by omega⟩
  have hnear := close_of_abs_le h.odd hclose
  obtain ⟨hlow, hhigh⟩ := mem_decimals h hnear
  obtain ⟨hlow', hhigh'⟩ := hnear.survivors (period_pos j) (approach j).multipliers hlow hhigh
  have hsurveyed := (isSurveyed_of_le h.least h.greatest).1
  simp only [isSurveyed, Bool.or_eq_true, Bool.and_eq_true, decide_eq_true_iff] at hsurveyed
  rcases hsurveyed with (⟨⟨hslack, hj⟩, hj'⟩ | hempty) | ⟨⟨hone, hslack⟩, hmem⟩
  · refine .inl ⟨?_, hj, hj'⟩
    have hzero := hnear.2
    rw [hslack, Nat.cast_zero, abs_nonpos_iff, sub_eq_zero] at hzero
    have hequal : ((c : ℚ) * 10 ^ i) * (approach j).step = B * (approach j).period := by
      exact_mod_cast hzero
    have hstep := step_mul_zpow j
    have hperiod : ((approach j).period : ℚ) ≠ 0 := Nat.cast_ne_zero.mpr (period_pos j).ne'
    refine mul_right_cancel₀ hperiod ?_
    rw [zpow_add₀ (by norm_num), zpow_natCast]
    linear_combination 2 ^ j * hequal - (c * 10 ^ i : ℚ) * hstep
  · omega
  · have hc := le_antisymm (hone ▸ hhigh') hlow'
    rw [← hc, ← hnear.eq_ediv hslack] at hmem
    exact .inr (List.contains_iff_mem.mp hmem)

end BlockCoding.Single
