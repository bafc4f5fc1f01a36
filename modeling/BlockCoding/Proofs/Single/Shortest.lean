import BlockCoding.Proofs.Single.Narrowing

/-!
# Proofs/Single/Shortest — the decimal of a number is in its reach

A `Neighbourhood` compares over one denominator what `Reach` says about rationals (`holds_iff`).  On
a grid as fine as the ninth digit the reach always has a point, so the search ends in time:
`shortest` gives at most ten digits that are in the reach of the number and at most one step of
their grid away from it (`denotes_shortest`).
-/

namespace BlockCoding.Single

variable {m : ℕ} {q : ℤ}

namespace Neighbourhood

/-! ## Comparing over one denominator -/

section Comparing

variable (n : Neighbourhood) (k : ℤ) (a c : ℕ)

/-- The rational that a numerator stands for. -/
def ratio (a : ℕ) : ℚ := a / n.denominator

/-- The scales of a grid are a power of ten. -/
theorem gridScale_eq : ((gridScale k).2 : ℚ) = 10 ^ k * (gridScale k).1 := by
  simp only [gridScale, Nat.pow_eq]
  obtain ⟨i, rfl | rfl⟩ := k.eq_nat_or_neg
  · simp
  · rw [zpow_neg, neg_neg, Int.toNat_natCast, Int.toNat_neg_natCast, zpow_natCast]
    push_cast
    field_simp

variable {n} (hn : 0 < n.denominator)

include hn

theorem scale_pos : (0 : ℚ) < (gridScale k).1 * n.denominator := by
  have hpos : 0 < (gridScale k).1 := Nat.pow_pos (by decide)
  exact mul_pos (Nat.cast_pos.mpr hpos) (Nat.cast_pos.mpr hn)

theorem cast_numerator :
    ((a * (gridScale k).1 : ℕ) : ℚ) = n.ratio a * ((gridScale k).1 * n.denominator) := by
  have hden : (n.denominator : ℚ) ≠ 0 := Nat.cast_ne_zero.mpr hn.ne'
  rw [ratio]
  push_cast
  field_simp

omit hn in
theorem cast_point : ((c * ((gridScale k).2 * n.denominator) : ℕ) : ℚ)
    = c * 10 ^ k * ((gridScale k).1 * n.denominator) := by
  push_cast
  rw [gridScale_eq]
  ring

theorem numerator_le_iff : a * (gridScale k).1 ≤ c * ((gridScale k).2 * n.denominator) ↔
    n.ratio a ≤ c * 10 ^ k := by
  rw [← @Nat.cast_le ℚ, cast_numerator k a hn, cast_point,
    mul_le_mul_iff_left₀ (scale_pos k hn)]

theorem le_numerator_iff : c * ((gridScale k).2 * n.denominator) ≤ a * (gridScale k).1 ↔
    c * 10 ^ k ≤ n.ratio a := by
  rw [← @Nat.cast_le ℚ, cast_numerator k a hn, cast_point,
    mul_le_mul_iff_left₀ (scale_pos k hn)]

/-- **A point of a grid is in the interval as its rational is.** -/
theorem holds_iff : n.holds k c = true ↔
    n.ratio n.lower ≤ c * 10 ^ k ∧ c * 10 ^ k ≤ n.ratio n.upper ∧
      (n.closed = false → n.ratio n.lower < c * 10 ^ k ∧ c * 10 ^ k < n.ratio n.upper) := by
  have hpoint : c * (gridScale k).2 * n.denominator = c * ((gridScale k).2 * n.denominator) :=
    Nat.mul_assoc ..
  rw [holds]
  simp only [hpoint]
  split
  · next hclosed =>
    rw [Bool.and_eq_true, decide_eq_true_iff, decide_eq_true_iff, numerator_le_iff k _ c hn,
      le_numerator_iff k _ c hn]
    simp [hclosed]
  · next hclosed =>
    rw [Bool.and_eq_true, decide_eq_true_iff, decide_eq_true_iff, ← not_le, ← not_le,
      numerator_le_iff k _ c hn, le_numerator_iff k _ c hn, not_le, not_le]
    have hopen : n.closed = false := Bool.not_eq_true _ ▸ hclosed
    exact ⟨fun h => ⟨h.1.le, h.2.le, fun _ => h⟩, fun h => h.2.2 hopen⟩

/-- **Whether a number reaches a power of ten.** -/
theorem reaches_iff : n.reaches k = true ↔ 10 ^ k ≤ n.ratio n.value := by
  have h := le_numerator_iff k n.value 1 hn
  rw [Nat.one_mul, Nat.cast_one, one_mul] at h
  rw [← h, reaches]
  exact decide_eq_true_iff

end Comparing

/-! ## The neighbours on a grid -/

variable (n : Neighbourhood) (k : ℤ)

/-- The last point of a grid that is not beyond the number. -/
def below : ℕ := n.value * (gridScale k).1 / ((gridScale k).2 * n.denominator)

variable {n}

theorem below_le (hn : 0 < n.denominator) : n.below k * 10 ^ k ≤ n.ratio n.value :=
  (le_numerator_iff k _ _ hn).mp (Nat.div_mul_le_self ..)

theorem lt_below (hn : 0 < n.denominator) : n.ratio n.value < (n.below k + 1) * 10 ^ k := by
  have hpos : 0 < (gridScale k).2 * n.denominator := Nat.mul_pos (Nat.pow_pos (by decide)) hn
  have hlt := Nat.lt_div_mul_add hpos (a := n.value * (gridScale k).1)
  have h := (le_numerator_iff k n.value (n.below k + 1) hn).not.mp (by
    rw [not_le, Nat.add_one_mul]
    exact hlt)
  rw [not_le, Nat.cast_add_one] at h
  exact h

variable {k}

/-- What is found is one of the neighbours, and in the interval. -/
theorem nearest?_eq_some {c : ℕ} (h : n.nearest? k = some c) :
    n.holds k c = true ∧ (c = n.below k ∨ c = n.below k + 1) := by
  have hbelow : n.value * (gridScale k).1 / ((gridScale k).2 * n.denominator) = n.below k := rfl
  simp only [nearest?, hbelow] at h
  rcases hlow : n.holds k (n.below k) <;> rcases hhigh : n.holds k (n.below k + 1) <;>
    rw [hlow, hhigh] at h
  · cases h
  · obtain rfl := Option.some.inj h
    exact ⟨hhigh, .inr rfl⟩
  · obtain rfl := Option.some.inj h
    exact ⟨hlow, .inl rfl⟩
  · simp only [] at h
    split_ifs at h <;> obtain rfl := Option.some.inj h
    · exact ⟨hlow, .inl rfl⟩
    · exact ⟨hhigh, .inr rfl⟩
    · exact ⟨hlow, .inl rfl⟩
    · exact ⟨hhigh, .inr rfl⟩

/-- Nothing is found only where the neighbour above is not in the interval. -/
theorem nearest?_eq_none (h : n.nearest? k = none) : n.holds k (n.below k + 1) = false := by
  have hbelow : n.value * (gridScale k).1 / ((gridScale k).2 * n.denominator) = n.below k := rfl
  simp only [nearest?, hbelow] at h
  rcases hhigh : n.holds k (n.below k + 1)
  · rfl
  · rcases hlow : n.holds k (n.below k) <;> rw [hlow, hhigh] at h
    · cases h
    · simp only [] at h
      split_ifs at h

/-! ## The search -/

/-- **The search ends on the first grid with a point**, if there is one in time. -/
theorem search_spec {fuel : ℕ} {i : ℕ} (hi : i < fuel) (h : n.nearest? (k - i) ≠ none) :
    ∃ c, ∃ j ≤ i, n.search fuel k = (c, k - j) ∧ n.nearest? (k - j) = some c := by
  induction fuel generalizing k i with
  | zero => exact absurd hi i.not_lt_zero
  | succ fuel ih =>
    rw [search]
    split
    · next c hc => exact ⟨c, 0, i.zero_le, by simp, by simpa using hc⟩
    · next hnone =>
      obtain ⟨i, rfl⟩ : ∃ j, i = j + 1 := by
        refine Nat.exists_eq_add_one.mpr (Nat.pos_of_ne_zero ?_)
        rintro rfl
        exact h (by simpa using hnone)
      have hnext (j : ℕ) : k - (j + 1 : ℕ) = k - 1 - j := by omega
      rw [hnext] at h
      obtain ⟨c, j, hj, hsearch, hc⟩ := ih (Nat.lt_of_succ_lt_succ hi) h
      exact ⟨c, j + 1, Nat.succ_le_succ hj, by rw [hsearch, hnext], by rw [hnext, hc]⟩

/-- **The search for the first digit ends where it stands**, if it starts above and ends in time. -/
theorem leadingExponent_spec {fuel : ℕ} {start : ℤ} (hlow : n.reaches (start - fuel) = true)
    (hhigh : n.reaches (start + 1) = false) :
    ∃ e, n.leadingExponent fuel start = e ∧ start - fuel ≤ e ∧ e ≤ start ∧
      n.reaches e = true ∧ n.reaches (e + 1) = false := by
  induction fuel generalizing start with
  | zero => exact ⟨start, rfl, by simp, le_rfl, by simpa using hlow, hhigh⟩
  | succ fuel ih =>
    rw [leadingExponent]
    split
    · next h => exact ⟨start, rfl, by omega, le_rfl, h, hhigh⟩
    · next h =>
      have hnext : start - (fuel + 1 : ℕ) = start - 1 - fuel := by omega
      rw [hnext] at hlow ⊢
      obtain ⟨e, he, hle, hge, hreaches⟩ := ih hlow (by simpa using h)
      exact ⟨e, he, hle, by omega, hreaches⟩

/-! ## The neighbourhood of a number -/

theorem denominator_pos (m : ℕ) (q : ℤ) : 0 < (ofDyadic m q).denominator :=
  Nat.pow_pos (by decide)

/-- A numerator in quarters of the last place stands for as many of them. -/
theorem ratio_mul_pow (m : ℕ) (q : ℤ) (a : ℕ) :
    (ofDyadic m q).ratio (a * Nat.pow 2 (q - 2).toNat) = a / 4 * 2 ^ q := by
  rw [ratio, ofDyadic]
  simp only [Nat.pow_eq]
  obtain ⟨i, hi | hi⟩ := (q - 2).eq_nat_or_neg
  · obtain rfl : q = i + 2 := by omega
    have hdown : (2 - (i + 2 : ℤ)).toNat = 0 := by omega
    rw [hi, hdown, Int.toNat_natCast, zpow_add₀ two_ne_zero, zpow_natCast]
    push_cast
    ring
  · obtain rfl : q = 2 - i := by omega
    have hdown : (2 - (2 - i : ℤ)).toNat = i := by omega
    rw [hi, hdown, Int.toNat_neg_natCast, zpow_sub₀ two_ne_zero, zpow_natCast]
    push_cast
    field_simp

/-- **The numerators stand for the number and for the ends of its reach.** -/
theorem ratio_value (m : ℕ) (q : ℤ) : (ofDyadic m q).ratio (ofDyadic m q).value = m * 2 ^ q := by
  refine (ratio_mul_pow m q (4 * m)).trans ?_
  push_cast
  ring

theorem ratio_upper (m : ℕ) (q : ℤ) :
    (ofDyadic m q).ratio (ofDyadic m q).upper = upperEnd m q := by
  refine (ratio_mul_pow m q (4 * m + 2)).trans ?_
  rw [upperEnd]
  push_cast
  ring

theorem ratio_lower (hm : 0 < m) (q : ℤ) :
    (ofDyadic m q).ratio (ofDyadic m q).lower = lowerEnd m q := by
  refine (ratio_mul_pow m q _).trans ?_
  have hunit : unit = 2 ^ 23 := rfl
  rw [lowerEnd, hunit, Nat.cast_sub (by split <;> omega)]
  split_ifs <;> push_cast <;> ring

/-- **A point of a grid is in the interval if it is in the reach.** -/
theorem holds_ofDyadic_iff {c : ℕ} (hm : 0 < m) :
    (ofDyadic m q).holds k c = true ↔ Reach m q (c * 10 ^ k) := by
  have hclosed : (ofDyadic m q).closed = false ↔ m % 2 = 1 :=
    decide_eq_false_iff_not.trans Nat.mod_two_ne_zero
  rw [holds_iff k c (denominator_pos m q), ratio_lower hm, ratio_upper, hclosed]
  exact ⟨fun h => ⟨h.1, h.2.1, h.2.2⟩, fun h => ⟨h.low, h.high, h.odd⟩⟩

end Neighbourhood

/-! ## The decimal -/

/-- A decimal that stands for `m · 2 ^ q`: it is in the reach of the number, at most one step of its
grid away from it, and neither it nor its grid is out of range. -/
structure Denotes (m : ℕ) (q : ℤ) (c : ℕ) (k : ℤ) : Prop where
  pos : 0 < c
  le : c ≤ 10 ^ 9
  least : -54 ≤ k
  greatest : k ≤ 38
  reach : Reach m q (c * 10 ^ k)
  close : |(c * 10 ^ k : ℚ) - m * 2 ^ q| ≤ 10 ^ k

variable {k : ℤ}

/-- A grid whose steps are shorter than half a last place has a point in the reach. -/
theorem nearest?_ne_none (hm : 0 < m) (hk : (10 : ℚ) ^ k < 2 ^ q / 2) :
    (Neighbourhood.ofDyadic m q).nearest? k ≠ none := by
  intro hnone
  have hhigh := Neighbourhood.nearest?_eq_none hnone
  have hlow := Neighbourhood.below_le k (Neighbourhood.denominator_pos m q)
  have hlt := Neighbourhood.lt_below k (Neighbourhood.denominator_pos m q)
  rw [Neighbourhood.ratio_value] at hlow hlt
  rw [Bool.eq_false_iff, ne_eq, Neighbourhood.holds_ofDyadic_iff hm] at hhigh
  refine hhigh ?_
  push_cast
  have hlower : lowerEnd m q ≤ m * 2 ^ q := by
    refine mul_le_mul_of_nonneg_right ?_ (zpow_pos two_pos q).le
    split <;> linarith
  have hupper : upperEnd m q = m * 2 ^ q + 2 ^ q / 2 := by
    rw [upperEnd]
    ring
  have hinside : (((Neighbourhood.ofDyadic m q).below k : ℚ) + 1) * 10 ^ k < upperEnd m q := by
    rw [hupper]
    linarith
  exact ⟨by linarith, hinside.le, fun _ => ⟨by linarith, hinside⟩⟩

/-- The first digit of a number. -/
theorem exists_leadingExponent (hm : 0 < m) (hnormal : Normal m q) (hq : q ≤ 104) :
    ∃ e, (Neighbourhood.ofDyadic m q).leadingExponent 84 38 = e ∧ -46 ≤ e ∧ e ≤ 38 ∧
      (10 : ℚ) ^ e ≤ m * 2 ^ q ∧ (m : ℚ) * 2 ^ q < 10 ^ (e + 1) := by
  have hone : (1 : ℚ) ≤ m := Nat.one_le_cast.mpr hm
  have hm24 : (m : ℚ) < 2 ^ 24 := by exact_mod_cast hnormal.lt
  have hlow : (10 : ℚ) ^ (38 - (84 : ℕ) : ℤ) ≤ m * 2 ^ q :=
    calc (10 : ℚ) ^ (38 - (84 : ℕ) : ℤ) ≤ 1 * 2 ^ (-149 : ℤ) := by norm_num
      _ ≤ m * 2 ^ q := by gcongr; exacts [one_le_two, hnormal.le]
  have hhigh : (m : ℚ) * 2 ^ q < 10 ^ (38 + 1 : ℤ) :=
    calc (m : ℚ) * 2 ^ q < 2 ^ 24 * 2 ^ q := by gcongr
      _ ≤ 2 ^ 24 * 2 ^ (104 : ℤ) := by gcongr; exact one_le_two
      _ < 10 ^ (38 + 1 : ℤ) := by norm_num
  have hreaches (e : ℤ) :
      (Neighbourhood.ofDyadic m q).reaches e = true ↔ (10 : ℚ) ^ e ≤ m * 2 ^ q := by
    rw [Neighbourhood.reaches_iff e (Neighbourhood.denominator_pos m q), Neighbourhood.ratio_value]
  obtain ⟨e, he, hmin, hmax, hfirst, hnext⟩ := Neighbourhood.leadingExponent_spec
    ((hreaches _).mpr hlow) (Bool.eq_false_iff.mpr (mt (hreaches _).mp (not_le.mpr hhigh)))
  rw [hreaches] at hfirst
  rw [Bool.eq_false_iff, ne_eq, hreaches, not_le] at hnext
  exact ⟨e, he, by omega, hmax, hfirst, hnext⟩

/-- **The shortest decimal stands for the number.** -/
theorem denotes_shortest (hm : 0 < m) (hnormal : Normal m q) (hq : q ≤ 104) :
    Denotes m q (shortest m q).1 (shortest m q).2 := by
  obtain ⟨e, he, hmin, hmax, hfirst, hnext⟩ := exists_leadingExponent hm hnormal hq
  have hm24 : (m : ℚ) < 2 ^ 24 := by exact_mod_cast hnormal.lt
  have hfine : (10 : ℚ) ^ (e - (8 : ℕ)) < 2 ^ q / 2 := by
    have hpos : (0 : ℚ) < 2 ^ q := zpow_pos two_pos q
    rw [zpow_sub₀ (by norm_num), zpow_natCast, div_lt_iff₀ (by positivity)]
    calc (10 : ℚ) ^ e ≤ m * 2 ^ q := hfirst
      _ < 2 ^ 24 * 2 ^ q := by gcongr
      _ ≤ 2 ^ q / 2 * 10 ^ 8 := by linarith
  obtain ⟨c, j, hj, hsearch, hc⟩ := Neighbourhood.search_spec (by decide : 8 < 9)
    (nearest?_ne_none hm hfine)
  have hshortest : shortest m q = (c, e - j) := by
    rw [shortest]
    simp only [he, hsearch]
  obtain ⟨hholds, hneighbour⟩ := Neighbourhood.nearest?_eq_some hc
  have hlow := Neighbourhood.below_le (e - j) (Neighbourhood.denominator_pos m q)
  have hlt := Neighbourhood.lt_below (e - j) (Neighbourhood.denominator_pos m q)
  rw [Neighbourhood.ratio_value] at hlow hlt
  rw [hshortest]
  generalize (Neighbourhood.ofDyadic m q).below (e - j) = b at *
  have hstep : (0 : ℚ) < 10 ^ (e - j) := zpow_pos (by norm_num) _
  have hb : 0 < b := by
    have hcoarse : (10 : ℚ) ^ (e - j) ≤ 10 ^ e := zpow_le_zpow_right₀ (by norm_num) (by omega)
    have h : (1 : ℚ) < b + 1 := by
      by_contra hle
      have := mul_le_mul_of_nonneg_right (not_lt.mp hle) hstep.le
      linarith
    exact_mod_cast (by linarith : (0 : ℚ) < b)
  have hb' : b < 10 ^ (j + 1) := by
    have hscale : (10 : ℚ) ^ (e + 1) = 10 ^ (j + 1) * 10 ^ (e - j) := by
      rw [← zpow_natCast, ← zpow_add₀ (by norm_num)]
      congr 1
      push_cast
      ring
    have h : (b : ℚ) < 10 ^ (j + 1) := by
      refine lt_of_mul_lt_mul_right ?_ hstep.le
      rw [← hscale]
      exact hlow.trans_lt hnext
    exact_mod_cast h
  have hdigits : 10 ^ (j + 1) ≤ 10 ^ 9 := Nat.pow_le_pow_right (by decide) (by omega)
  refine ⟨?_, ?_, by omega, by omega, (Neighbourhood.holds_ofDyadic_iff hm).mp hholds, ?_⟩
  · rcases hneighbour with rfl | rfl <;> omega
  · rcases hneighbour with rfl | rfl <;> omega
  · rw [add_mul, one_mul] at hlt
    rcases hneighbour with rfl | rfl
    · exact abs_le.mpr ⟨by linarith, by linarith⟩
    · push_cast
      exact abs_le.mpr ⟨by linarith, by linarith⟩

end BlockCoding.Single
