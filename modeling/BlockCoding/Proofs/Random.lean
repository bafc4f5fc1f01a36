import BlockCoding.Random

/-!
# Proofs/Random — what is drawn below a bound is below it

A number below `n` is the upper word of a word times `n`, which is less than `n`; and where a second
word decides whether to add one, the lower word is so large that the upper one is not the last.
-/

namespace BlockCoding.RandomSource

variable {σ : Type} [RandomSource σ]

/-- The two words of a product are its quotient and its remainder by `2^32`. -/
theorem toNat_wideProduct (a b : UInt32) :
    (wideProduct a b).1.toNat = a.toNat * b.toNat / 4294967296 ∧
      (wideProduct a b).2.toNat = a.toNat * b.toNat % 4294967296 := by
  have ha := a.toNat_lt
  have hb := b.toNat_lt
  have hsmall : a.toNat * b.toNat < 18446744073709551616 := by
    calc a.toNat * b.toNat ≤ 4294967295 * 4294967295 := Nat.mul_le_mul (by omega) (by omega)
      _ < 18446744073709551616 := by decide
  have hmul : (a.toUInt64 * b.toUInt64).toNat = a.toNat * b.toNat := by
    rw [UInt64.toNat_mul, UInt32.toNat_toUInt64, UInt32.toNat_toUInt64]
    exact Nat.mod_eq_of_lt hsmall
  constructor
  · have hhigh : a.toNat * b.toNat / 4294967296 < 4294967296 := by omega
    simp [wideProduct, UInt64.toNat_shiftRight, Nat.shiftRight_eq_div_pow, Nat.mod_eq_of_lt hsmall,
      Nat.mod_eq_of_lt hhigh]
  · simp [wideProduct]

/-- **A draw below a bound is below it**, whatever words the source gives. -/
theorem below_lt {n : UInt32} (hn : 0 < n) (source : σ) : (below n source).1 < n := by
  rcases hnext : nextWord source with ⟨word, later⟩
  obtain ⟨hhigh, hlow⟩ := toNat_wideProduct word n
  have hprod : word.toNat * n.toNat ≤ 4294967295 * n.toNat :=
    Nat.mul_le_mul_right _ (by have := word.toNat_lt; omega)
  rw [UInt32.lt_iff_toNat_lt] at hn ⊢
  have hnlt := n.toNat_lt
  rw [UInt32.toNat_zero] at hn
  simp only [below, hnext]
  split
  · next hlarge =>
    rw [UInt32.lt_iff_toNat_lt, UInt32.toNat_sub, hlow, UInt32.toNat_zero] at hlarge
    have hnotLast : (wideProduct word n).1.toNat + 1 < n.toNat := by
      rw [hhigh]
      omega
    dsimp only
    split
    · rw [UInt32.toNat_add, UInt32.toNat_one]
      omega
    · omega
  · rw [hhigh]
    omega

end BlockCoding.RandomSource
