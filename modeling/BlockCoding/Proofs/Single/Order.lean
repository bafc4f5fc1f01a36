import BlockCoding.Single.Bounds
import Mathlib.Data.Int.Order.Basic
import Mathlib.Data.Prod.Lex
import Mathlib.Order.Compare

/-!
# Proofs/Single/Order — single-precision numbers stand in a line

Whatever is a number has a `standing`, in an order without gaps of comparison: the side of zero it
is on, then its exponent, then its mantissa.  Two of them are compared as their standings are
(`le_iff`, `lt_iff`); the two zeros stand at one place.  What is not a number compares with nothing.
The smaller of two is a number as soon as one of them is.
-/

namespace BlockCoding.Single

open Float.Model (UnpackedFloat)

variable {a b c : Float32}

/-! ## Standings -/

/-- Where unpacked digits stand: the side of zero, the exponent, the mantissa. -/
def place : UnpackedFloat → ℤ ×ₗ ℤ ×ₗ ℤ
  | .infinity .positive => toLex (2, toLex (0, 0))
  | .finite .positive mantissa exponent _ => toLex (1, toLex (exponent, mantissa))
  | .zero _ | .notANumber => toLex (0, toLex (0, 0))
  | .finite .negative mantissa exponent _ => toLex (-1, toLex (-exponent, -mantissa))
  | .infinity .negative => toLex (-2, toLex (0, 0))

/-- On one side of zero exponents are compared first; below zero both count backwards. -/
private theorem compares_finite (e f : ℤ) (m n : ℕ) :
    let o := (compare e f).then (compare m n)
    o.Compares (toLex ((1 : ℤ), toLex (e, (m : ℤ)))) (toLex (1, toLex (f, (n : ℤ)))) ∧
      o.swap.Compares (toLex ((-1 : ℤ), toLex (-e, -(m : ℤ))))
        (toLex (-1, toLex (-f, -(n : ℤ)))) := by
  rcases lt_trichotomy e f with h | rfl | h
  · simp [compare_lt_iff_lt.mpr h, Prod.Lex.toLex_lt_toLex, h, Ordering.Compares]
  · rcases lt_trichotomy m n with h | rfl | h
    · simp [compare_lt_iff_lt.mpr h, Prod.Lex.toLex_lt_toLex, h, Ordering.Compares]
    · simp [Ordering.Compares]
    · simp [compare_gt_iff_gt.mpr h, Prod.Lex.toLex_lt_toLex, h, Ordering.Compares]
  · simp [compare_gt_iff_gt.mpr h, Prod.Lex.toLex_lt_toLex, h, Ordering.Compares]

/-- The comparison of two numbers is the one of their places. -/
theorem compares {u v : UnpackedFloat} (hu : u.isNaN = false) (hv : v.isNaN = false) :
    ∃ o, u.compare v = some o ∧ o.Compares (place u) (place v) := by
  rcases u with s | _ | s | ⟨s, m, e, _⟩
  case notANumber => cases hu
  all_goals rcases v with t | _ | t | ⟨t, n, f, _⟩
  case infinity.notANumber | zero.notANumber | finite.notANumber => cases hv
  case finite.finite =>
    obtain ⟨habove, hbelow⟩ := compares_finite e f m n
    cases s <;> cases t
    case negative.negative => exact ⟨_, rfl, hbelow⟩
    case positive.positive => exact ⟨_, rfl, habove⟩
    all_goals exact ⟨cmp (place _) (place _), rfl, cmp_compares _ _⟩
  -- The sides of zero settle all the rest.
  all_goals
    refine ⟨cmp (place _) (place _), ?_, cmp_compares _ _⟩
    cases s <;> cases t <;> rfl

/-- **Numbers compare as their places do**, and nothing else compares. -/
theorem compare_eq_some_iff {u v : UnpackedFloat} {o : Ordering} : u.compare v = some o ↔
    (u.isNaN = false ∧ v.isNaN = false) ∧ o.Compares (place u) (place v) := by
  constructor
  · intro h
    have hnumbers : u.isNaN = false ∧ v.isNaN = false := by
      cases u <;> cases v <;> first | exact ⟨rfl, rfl⟩ | cases h
    obtain ⟨o', ho', hcompares⟩ := compares hnumbers.1 hnumbers.2
    obtain rfl := Option.some.inj (ho'.symm.trans h)
    exact ⟨hnumbers, hcompares⟩
  · rintro ⟨⟨hu, hv⟩, hcompares⟩
    obtain ⟨o', ho', hcompares'⟩ := compares hu hv
    exact ho'.trans (congrArg some (hcompares'.inj hcompares))

/-- Where a number stands. -/
def standing (a : Float32) : ℤ ×ₗ ℤ ×ₗ ℤ := place a.toModel.unpack

/-- **One number is less than another exactly if it stands below it.** -/
theorem lt_iff : a < b ↔ (a.isNaN = false ∧ b.isNaN = false) ∧ standing a < standing b := by
  have hlt : a < b ↔ a.toModel.unpack.compare b.toModel.unpack = some .lt := by
    simp [LT.lt, Float32.lt, Float32.Model.lt, UnpackedFloat.lt]
  exact hlt.trans compare_eq_some_iff

/-- **One number is at most another exactly if it does not stand above it.** -/
theorem le_iff : a ≤ b ↔ (a.isNaN = false ∧ b.isNaN = false) ∧ standing a ≤ standing b := by
  have hle : a ≤ b ↔ ∃ o, a.toModel.unpack.compare b.toModel.unpack = some o ∧ o ≠ .gt := by
    change (decide (Option.any _ _ = true)) = true ↔ _
    rw [decide_eq_true_iff, Option.any_eq_true]
    simp only [Ordering.isLE_iff_ne_gt]
  simp only [hle, compare_eq_some_iff]
  constructor
  · rintro ⟨o, ⟨hnumbers, hcompares⟩, hne⟩
    exact ⟨hnumbers, hcompares.ne_gt.mp hne⟩
  · rintro ⟨hnumbers, hbelow⟩
    exact ⟨_, ⟨hnumbers, cmp_compares _ _⟩, (cmp_compares _ _).ne_gt.mpr hbelow⟩

/-! ## The order of numbers -/

theorem le_refl (ha : a.isNaN = false) : a ≤ a := le_iff.mpr ⟨⟨ha, ha⟩, le_rfl⟩

theorem le_trans (hab : a ≤ b) (hbc : b ≤ c) : a ≤ c :=
  le_iff.mpr ⟨⟨(le_iff.mp hab).1.1, (le_iff.mp hbc).1.2⟩, (le_iff.mp hab).2.trans (le_iff.mp hbc).2⟩

theorem le_of_lt (hab : a < b) : a ≤ b :=
  le_iff.mpr ⟨(lt_iff.mp hab).1, (lt_iff.mp hab).2.le⟩

theorem lt_of_le_of_lt (hab : a ≤ b) (hbc : b < c) : a < c :=
  lt_iff.mpr ⟨⟨(le_iff.mp hab).1.1, (lt_iff.mp hbc).1.2⟩,
    (le_iff.mp hab).2.trans_lt (lt_iff.mp hbc).2⟩

theorem not_le_of_lt (hab : a < b) : ¬ b ≤ a := fun hba =>
  (le_iff.mp hba).2.not_gt (lt_iff.mp hab).2

/-- **Of two numbers one is less, or the other is at most that one.** -/
theorem lt_of_not_le (ha : a.isNaN = false) (hb : b.isNaN = false) (h : ¬ a ≤ b) : b < a :=
  lt_iff.mpr ⟨⟨hb, ha⟩, lt_of_not_ge fun hle => h (le_iff.mpr ⟨⟨ha, hb⟩, hle⟩)⟩

theorem le_of_not_lt (ha : a.isNaN = false) (hb : b.isNaN = false) (h : ¬ a < b) : b ≤ a :=
  le_iff.mpr ⟨⟨hb, ha⟩, le_of_not_gt fun hlt => h (lt_iff.mpr ⟨⟨ha, hb⟩, hlt⟩)⟩

theorem isNaN_infinity : infinity.isNaN = false := by decide

/-- No number is above infinity. -/
theorem le_infinity (ha : a.isNaN = false) : a ≤ infinity := by
  refine le_iff.mpr ⟨⟨ha, isNaN_infinity⟩, ?_⟩
  have htop : standing infinity = toLex (2, toLex (0, 0)) := by rfl
  rw [htop, standing]
  rcases a.toModel.unpack with (_ | _) | _ | _ | ⟨_ | _, m, e, _⟩ <;>
    dsimp only [place] <;> simp [Prod.Lex.toLex_le_toLex]

/-! ## The smaller of two -/

theorem smaller_eq (a b : Float32) : smaller a b = a ∨ smaller a b = b := by
  rw [smaller]
  split
  · exact .inr rfl
  · split
    · exact .inl rfl
    · split
      · exact .inr rfl
      · exact .inl rfl

/-- The smaller of two is a number if the first is. -/
theorem isNaN_smaller (ha : a.isNaN = false) (b : Float32) : (smaller a b).isNaN = false := by
  rw [smaller, if_neg (by rw [ha]; exact Bool.false_ne_true)]
  split
  · exact ha
  · split
    · next hb _ => simpa using hb
    · exact ha

theorem smaller_le_left (ha : a.isNaN = false) (b : Float32) : smaller a b ≤ a := by
  rw [smaller, if_neg (by rw [ha]; exact Bool.false_ne_true)]
  split
  · exact le_refl ha
  · split
    · next hlt => exact le_of_lt hlt
    · exact le_refl ha

theorem smaller_le_right (a : Float32) (hb : b.isNaN = false) : smaller a b ≤ b := by
  rw [smaller]
  split
  · exact le_refl hb
  · next ha =>
    rw [if_neg (by rw [hb]; exact Bool.false_ne_true)]
    split
    · exact le_refl hb
    · next hlt => exact le_of_not_lt hb (by simpa using ha) hlt

end BlockCoding.Single
