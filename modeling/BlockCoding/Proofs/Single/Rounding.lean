import BlockCoding.Proofs.Single.Units

/-!
# Proofs/Single/Rounding — sums and differences are rounded, and rounding keeps the order

The result of an addition is the sum of the units, rounded to 24 bits and then packed (`amount_add`,
`amount_sub`).  Both keep the order (`fit_mono`) and what is a number already (`fit_amount`), so
adding keeps the order too (`add_le_add`): a number that is not negative never lowers another one
(`le_add`), and taken away never raises it (`sub_le`).
-/

namespace BlockCoding.Single

open Float.Model (UnpackedFloat Format totalExponent)
open Float.Model.UnpackedFloat (Sign ExtendedMantissa Accuracy shiftToTargetExponent
  roundWithAccuracy)

/-! ## Shifting a mantissa -/

/-- A mantissa with the two bits that follow it, read as one number. -/
def code (em : ExtendedMantissa) : ℕ :=
  4 * em.mantissa + 2 * em.roundBit.toNat + em.stickyBit.toNat

/-- A mantissa with nothing after it. -/
def whole (mantissa : ℕ) : ExtendedMantissa := ⟨mantissa, false, false⟩

variable {em em' : ExtendedMantissa}

/-- The last bit sticks. -/
theorem code_shiftRightOne (em : ExtendedMantissa) :
    code em.shiftRightOne = 2 * (code em / 4) + min 1 (code em % 4) := by
  obtain ⟨mantissa, _ | _, _ | _⟩ := em <;>
    rcases Nat.mod_two_eq_zero_or_one mantissa with h | h <;>
    simp [code, ExtendedMantissa.shiftRightOne, h] <;> omega

theorem shiftRight_zero (em : ExtendedMantissa) : em >>> (0 : ℕ) = em := rfl

theorem shiftRight_succ (em : ExtendedMantissa) (k : ℕ) :
    em >>> (k + 1) = (em >>> k).shiftRightOne := rfl

theorem shiftRight_add (em : ExtendedMantissa) (j k : ℕ) : em >>> (j + k) = em >>> j >>> k := by
  induction k with
  | zero => rfl
  | succ k ih => rw [← Nat.add_assoc, shiftRight_succ, shiftRight_succ, ih]

theorem mantissa_shiftRight (em : ExtendedMantissa) (k : ℕ) :
    (em >>> k).mantissa = em.mantissa / 2 ^ k := by
  induction k with
  | zero => rw [shiftRight_zero, Nat.pow_zero, Nat.div_one]
  | succ k ih =>
    rw [shiftRight_succ, ExtendedMantissa.shiftRightOne, ih, Nat.div_div_eq_div_mul, Nat.pow_succ]

theorem whole_shiftRight (m k : ℕ) : whole (m * 2 ^ k) >>> k = whole m := by
  induction k generalizing m with
  | zero => rw [shiftRight_zero, Nat.pow_zero, Nat.mul_one]
  | succ k ih =>
    have hsplit : m * 2 ^ (k + 1) = m * 2 * 2 ^ k := by ring
    rw [hsplit, shiftRight_succ, ih]
    simp [whole, ExtendedMantissa.shiftRightOne]

theorem code_shiftRight_le (h : code em ≤ code em') (k : ℕ) :
    code (em >>> k) ≤ code (em' >>> k) := by
  induction k with
  | zero => exact h
  | succ k ih =>
    rw [shiftRight_succ, shiftRight_succ, code_shiftRightOne, code_shiftRightOne]
    omega

/-! ## Rounding a mantissa -/

theorem roundedMantissa_le (em : ExtendedMantissa) :
    em.mantissa ≤ em.roundedMantissa ∧ em.roundedMantissa ≤ em.mantissa + 1 := by
  obtain ⟨mantissa, _ | _, _ | _⟩ := em <;>
    simp [ExtendedMantissa.roundedMantissa, ExtendedMantissa.accuracy, Accuracy.roundToNearestEven]
  omega

theorem roundedMantissa_mono (h : code em ≤ code em') :
    em.roundedMantissa ≤ em'.roundedMantissa := by
  have hle := (roundedMantissa_le em).2
  have hle' := (roundedMantissa_le em').1
  obtain ⟨m, _ | _, _ | _⟩ := em <;> obtain ⟨n, _ | _, _ | _⟩ := em' <;>
    simp [code, ExtendedMantissa.roundedMantissa, ExtendedMantissa.accuracy,
      Accuracy.roundToNearestEven] at * <;>
    omega

/-- The bits of a number of units that there is no room for. -/
def excess (n : ℕ) : ℕ := n.log2 - 23

/-- The mantissa a number of units is rounded to. -/
def rounded (n : ℕ) : ℕ := (whole n >>> excess n).roundedMantissa

/-- The units a number of units is rounded to. -/
def roundOff (n : ℕ) : ℕ := rounded n * 2 ^ excess n

theorem rounded_le (n : ℕ) : rounded n ≤ 2 ^ 24 := by
  have hlt : (whole n >>> excess n).mantissa < 2 ^ 24 := by
    rw [mantissa_shiftRight, Nat.div_lt_iff_lt_mul (Nat.two_pow_pos _), ← Nat.pow_add]
    refine Nat.lt_log2_self.trans_le (Nat.pow_le_pow_right (by decide) ?_)
    rw [excess]
    change n.log2 + 1 ≤ _
    omega
  exact (roundedMantissa_le _).2.trans hlt

theorem le_rounded {n : ℕ} (h : 0 < excess n) : 2 ^ 23 ≤ rounded n := by
  have hn : n ≠ 0 := by
    rintro rfl
    exact absurd h (by decide)
  have hle : 2 ^ 23 * 2 ^ excess n ≤ n := by
    rw [← Nat.pow_add, ← Nat.le_log2 hn]
    unfold excess at *
    omega
  calc 2 ^ 23 ≤ n / 2 ^ excess n := (Nat.le_div_iff_mul_le (Nat.two_pow_pos _)).mpr hle
    _ = (whole n >>> excess n).mantissa := (mantissa_shiftRight (whole n) _).symm
    _ ≤ rounded n := (roundedMantissa_le _).1

/-- **Rounding keeps the order**, also from one exponent to the next. -/
theorem roundOff_mono : Monotone roundOff := by
  intro n n' h
  have hlog : n.log2 ≤ n'.log2 := by
    rcases n.eq_zero_or_pos with rfl | hn
    · exact Nat.zero_le _
    · exact (Nat.le_log2 (by omega)).mpr ((Nat.log2_self_le hn.ne').trans h)
  have hexcess : excess n ≤ excess n' := Nat.sub_le_sub_right hlog 23
  rcases hexcess.lt_or_eq with hlt | heq
  · calc roundOff n ≤ 2 ^ 24 * 2 ^ excess n := Nat.mul_le_mul_right _ (rounded_le n)
      _ = 2 ^ 23 * 2 ^ (excess n + 1) := by ring
      _ ≤ 2 ^ 23 * 2 ^ excess n' := Nat.mul_le_mul_left _ (Nat.pow_le_pow_right (by decide) hlt)
      _ ≤ roundOff n' := Nat.mul_le_mul_right _ (le_rounded (by omega))
  · have hcode : code (whole n) ≤ code (whole n') := by
      simp only [code, whole]
      omega
    rw [roundOff, roundOff, rounded, rounded, heq]
    exact Nat.mul_le_mul_right _ (roundedMantissa_mono (code_shiftRight_le hcode _))

/-! ## Rounding digits -/

variable {m n : ℕ} {e : ℤ}

theorem log2_magnitude (hm : 0 < m) (e : ℤ) :
    (magnitude m e).log2 = m.log2 + (e + 149).toNat := by
  rw [Nat.log2_eq_iff (magnitude_pos hm e).ne', Nat.add_right_comm, Nat.pow_add, Nat.pow_add]
  exact ⟨Nat.mul_le_mul_right _ (Nat.log2_self_le hm.ne'),
    Nat.mul_lt_mul_of_pos_right Nat.lt_log2_self (Nat.two_pow_pos _)⟩

/-- The exponent that leaves 24 bits, or the least one, is as many bits above the least one as
there is no room for. -/
theorem excess_magnitude (hm : 0 < m) (he : -149 ≤ e) :
    max (m.log2 + e - 23) (-149) = excess (magnitude m e) - (149 : ℤ) := by
  rw [excess, log2_magnitude hm]
  omega

theorem targetExponent_eq (m : ℕ) (e : ℤ) :
    Format.binary32.targetExponent (totalExponent m e) = max (m.log2 + e - 23) (-149) := by
  change max ((m.log2 + 1 + e : ℤ) - 24) (-149) = _
  congr 1
  omega

theorem shiftToTargetExponent_exact (m : ℕ) (e : ℤ) :
    shiftToTargetExponent Format.binary32 m e .exact =
      (whole m >>> (max (m.log2 + e - 23) (-149) - e).toNat,
        max (max (m.log2 + e - 23) (-149)) e) := by
  rw [shiftToTargetExponent, targetExponent_eq]
  change (_, _) = _
  congr 1
  omega

/-- Digits with a bit to spare lose what there is no room for. -/
theorem shiftToTargetExponent_eq (hm : 0 < m) (he : -149 ≤ e)
    (hle : e ≤ excess (magnitude m e) - 149) :
    shiftToTargetExponent Format.binary32 m e .exact =
      (whole (magnitude m e) >>> excess (magnitude m e), excess (magnitude m e) - (149 : ℤ)) := by
  rw [shiftToTargetExponent_exact, excess_magnitude hm he, max_eq_left hle]
  generalize excess (magnitude m e) = k at *
  have hk : k = (e + 149).toNat + (k - 149 - e : ℤ).toNat := by omega
  nth_rewrite 3 [hk]
  rw [shiftRight_add, magnitude, whole_shiftRight]

/-- Rounding up can take one bit more, and then moves the mantissa once. -/
theorem carry (hm : m ≤ 2 ^ 24) (he : -149 ≤ e) (hfull : e = -149 ∨ 2 ^ 23 ≤ m) :
    ∃ n f, shiftToTargetExponent Format.binary32 m e .exact = (whole n, f) ∧ Normal n f ∧
      magnitude n f = magnitude m e := by
  rcases hm.lt_or_eq with hlt | rfl
  · refine ⟨m, e, ?_, ⟨hlt, he, hfull⟩, rfl⟩
    have hlog : m.log2 < 24 := by
      rcases m.eq_zero_or_pos with rfl | hm
      · decide
      · exact (Nat.log2_lt hm.ne').mpr hlt
    have hzero : (max (m.log2 + e - 23) (-149) - e).toNat = 0 := by omega
    rw [shiftToTargetExponent_exact, hzero, shiftRight_zero]
    congr 1
    omega
  · refine ⟨2 ^ 23, e + 1, ?_, ⟨by decide, by omega, .inr le_rfl⟩, (magnitude_pow_succ he).symm⟩
    have hlog : (2 ^ 24).log2 = 24 := Nat.log2_two_pow
    have hone : (max ((24 : ℕ) + e - 23) (-149) - e).toNat = 1 := by omega
    rw [shiftToTargetExponent_exact, hlog, hone]
    congr 1
    omega

theorem roundWithAccuracy_spec {s : Sign}
    (h : shiftToTargetExponent Format.binary32 m e .exact
      = (whole n >>> excess n, excess n - (149 : ℤ))) :
    Canonical (roundWithAccuracy Format.binary32 s m e .exact) ∧
      units (roundWithAccuracy Format.binary32 s m e .exact) = s.apply (roundOff n) := by
  obtain ⟨k, f, hcarry, hnormal, hmagnitude⟩ := carry (e := excess n - 149) (rounded_le n)
    (by omega) (by have := @le_rounded n; omega)
  have hunits : roundOff n = magnitude k f := by
    rw [hmagnitude, magnitude, Int.sub_add_cancel, Int.toNat_natCast, roundOff]
  rw [roundWithAccuracy, h, hunits]
  dsimp only
  rw [← rounded, hcarry]
  dsimp only
  split
  · next hzero =>
    change k = 0 at hzero
    refine ⟨trivial, ?_⟩
    rw [hzero, magnitude, Nat.zero_mul]
    cases s <;> rfl
  · exact ⟨hnormal, rfl⟩

/-- **Digits are rounded as their units are.** -/
theorem round_spec (s : Sign) (hm : 0 < m) (he : -149 ≤ e) :
    Canonical (UnpackedFloat.round Format.binary32 s m e) ∧
      units (UnpackedFloat.round Format.binary32 s m e) = s.apply (roundOff (magnitude m e)) := by
  rw [UnpackedFloat.round, targetExponent_eq, excess_magnitude hm he]
  dsimp only [UnpackedFloat.decreaseExponent]
  obtain ⟨k, hk⟩ : ∃ k, k = (e - (excess (magnitude m e) - 149)).toNat := ⟨_, rfl⟩
  rw [← hk]
  have hmagnitude : magnitude (m <<< k) (e - k) = magnitude m e :=
    magnitude_shiftLeft m (by omega)
  have hpos : 0 < m <<< k := by
    rw [Nat.shiftLeft_eq]
    exact Nat.mul_pos hm (Nat.two_pow_pos k)
  have hshift := shiftToTargetExponent_eq hpos (e := e - k) (by omega) (by rw [hmagnitude]; omega)
  rw [hmagnitude] at hshift
  exact roundWithAccuracy_spec hshift

/-- Rounding keeps what has no bit to spare. -/
theorem Normal.roundOff_magnitude (h : Normal m e) : roundOff (magnitude m e) = magnitude m e := by
  have hexcess : excess (magnitude m e) = (e + 149).toNat := by
    rcases m.eq_zero_or_pos with rfl | hm
    · obtain rfl : e = -149 := h.full.resolve_right (by decide)
      rfl
    · have hexcess := excess_magnitude hm h.le
      have hlog : m.log2 < 24 := (Nat.log2_lt hm.ne').mpr h.lt
      have hfull : e = -149 ∨ 23 ≤ m.log2 := h.full.imp_right (Nat.le_log2 hm.ne').mpr
      omega
  rw [roundOff, rounded, hexcess, magnitude, whole_shiftRight]
  rfl

/-! ## Rounding units -/

/-- The units a number of units on either side of zero is rounded to. -/
def nearest : ℤ → ℤ
  | .ofNat n => roundOff n
  | .negSucc n => -roundOff (n + 1)

theorem nearest_apply (s : Sign) (n : ℕ) : nearest (s.apply n) = s.apply (roundOff n) := by
  cases s with
  | positive => rfl
  | negative => cases n <;> rfl

theorem nearest_mono : Monotone nearest := by
  intro m n h
  cases m with
  | ofNat m =>
    cases n with
    | ofNat n => exact Int.ofNat_le.mpr (roundOff_mono (Int.ofNat_le.mp h))
    | negSucc n => exact absurd ((Int.natCast_nonneg m).trans h) (Int.negSucc_lt_zero n).not_ge
  | negSucc m =>
    cases n with
    | ofNat n =>
      exact (Int.neg_nonpos_of_nonneg (Int.natCast_nonneg _)).trans (Int.natCast_nonneg _)
    | negSucc n => exact Int.neg_le_neg (Int.ofNat_le.mpr (roundOff_mono (by omega)))

theorem nearest_apply_limit (s : Sign) : nearest (s.apply limit) = s.apply limit := by
  have hnormal : Normal (2 ^ 23) 105 := ⟨by decide, by decide, .inr le_rfl⟩
  rw [nearest_apply, limit, hnormal.roundOff_magnitude]

variable {u v : UnpackedFloat}

/-- Rounding keeps what has room. -/
theorem nearest_units (h : Fits u) : nearest (units u) = units u := by
  cases u with
  | infinity s =>
    have hnormal : Normal (2 ^ 23) 106 := ⟨by decide, by decide, .inr le_rfl⟩
    have htwice : magnitude (2 ^ 23) 106 = 2 * limit := by
      change 2 ^ 23 * 2 ^ 255 = 2 * (2 ^ 23 * 2 ^ 254)
      ring
    have hunits : units (.infinity s) = s.apply (magnitude (2 ^ 23) 106) := by
      rw [htwice, Nat.cast_mul]
      rfl
    rw [hunits, nearest_apply, hnormal.roundOff_magnitude]
  | zero | notANumber => rfl
  | finite => rw [units, nearest_apply, h.1.roundOff_magnitude]

/-! ## Adding units -/

theorem normalize_spec (m : ℤ) (he : -149 ≤ e) (s : Sign) :
    Canonical (UnpackedFloat.normalize Format.binary32 m e s) ∧
      units (UnpackedFloat.normalize Format.binary32 m e s)
        = nearest (m * 2 ^ (e + 149).toNat) := by
  rcases lt_trichotomy m 0 with hm | rfl | hm
  · obtain ⟨k, rfl⟩ := Int.eq_negSucc_of_lt_zero hm
    have hscaled : Int.negSucc k * 2 ^ (e + 149).toNat
        = Sign.negative.apply (magnitude (k + 1) e) := by
      rw [Int.negSucc_eq, Sign.apply, magnitude]
      push_cast
      ring
    rw [UnpackedFloat.normalize, compare_lt_iff_lt.mpr hm, hscaled, nearest_apply]
    exact round_spec .negative k.succ_pos he
  · rw [UnpackedFloat.normalize, Int.zero_mul]
    exact ⟨trivial, rfl⟩
  · obtain ⟨k, rfl⟩ := Int.eq_ofNat_of_zero_le hm.le
    have hscaled : (k : ℤ) * 2 ^ (e + 149).toNat = Sign.positive.apply (magnitude k e) := by
      rw [Sign.apply, magnitude]
      push_cast
      ring
    rw [UnpackedFloat.normalize, compare_gt_iff_gt.mpr hm, hscaled, nearest_apply]
    exact round_spec .positive (Int.ofNat_lt.mp hm) he

theorem apply_shiftLeft (s : Sign) (m : ℕ) {k : ℕ} (hk : k ≤ e + 149) :
    s.apply (m <<< k) * 2 ^ (e - k + 149).toNat = s.apply (magnitude m e) := by
  rw [← magnitude_shiftLeft m hk, magnitude]
  cases s <;> simp [Sign.apply]

/-- What reaches the limit is infinite once it is rounded. -/
theorem held_nearest_of_limit_le {n : ℤ} (h : limit ≤ n) : held (nearest n) = 2 * limit :=
  if_pos ((nearest_apply_limit .positive).symm.trans_le (nearest_mono h))

theorem held_nearest_of_le_neg_limit {n : ℤ} (h : n ≤ -limit) :
    held (nearest n) = -(2 * limit) := by
  have hlimit := limit_pos
  have hle : nearest n ≤ -limit := (nearest_mono h).trans (nearest_apply_limit .negative).le
  rw [held, if_neg (by omega), if_pos hle]

/-- What is added to an infinity does not bring it back below the limit. -/
theorem held_nearest_infinity_add {s : Sign} (hv : Fits v) (hne : v ≠ .infinity (-s)) :
    held (nearest (units (.infinity s) + units v)) = units (.infinity s) := by
  have hlimit := limit_pos
  have hspan := units_mem_span hv
  cases s with
  | positive =>
    apply held_nearest_of_limit_le
    rcases v with (_ | _) | _ | _ | ⟨_ | _, _, _, _⟩
    case infinity.negative => exact absurd rfl hne
    all_goals
      simp only [span] at hspan
      change (limit : ℤ) ≤ 2 * limit + _
      omega
  | negative =>
    apply held_nearest_of_le_neg_limit
    rcases v with (_ | _) | _ | _ | ⟨_ | _, _, _, _⟩
    case infinity.positive => exact absurd rfl hne
    all_goals
      simp only [span] at hspan
      change -(2 * limit : ℤ) + _ ≤ -limit
      omega

/-- **The units of a sum are those of the two numbers, added and rounded.** -/
theorem add_spec (hu : Fits u) (hv : Fits v)
    (hnumber : (UnpackedFloat.add Format.binary32 u v).isNaN = false) :
    Canonical (UnpackedFloat.add Format.binary32 u v) ∧
      held (units (UnpackedFloat.add Format.binary32 u v))
        = held (nearest (units u + units v)) := by
  rcases u with s | _ | s | ⟨s, m, e, hm⟩
  case notANumber => cases hnumber
  case infinity =>
    have hne : v ≠ .infinity (-s) := by
      rintro rfl
      cases s <;> cases hnumber
    have hadd : UnpackedFloat.add Format.binary32 (.infinity s) v = .infinity s := by
      cases v with
      | notANumber => cases hnumber
      | infinity t => cases s <;> cases t <;> first | rfl | cases hnumber
      | zero | finite => rfl
    rw [hadd, held_nearest_infinity_add hv hne]
    exact ⟨trivial, held_units (u := .infinity s) trivial⟩
  all_goals rcases v with t | _ | t | ⟨t, n, f, hn⟩
  case zero.notANumber | finite.notANumber => cases hnumber
  case zero.infinity | finite.infinity =>
    rw [Int.add_comm, held_nearest_infinity_add hu (by rintro ⟨⟩)]
    exact ⟨trivial, held_units (u := .infinity t) trivial⟩
  case zero.zero =>
    cases s <;> cases t <;> exact ⟨trivial, rfl⟩
  case zero.finite =>
    refine ⟨hv.1, ?_⟩
    change held (units (.finite t n f hn)) = held (nearest (0 + units (.finite t n f hn)))
    rw [Int.zero_add, nearest_units hv]
  case finite.zero =>
    refine ⟨hu.1, ?_⟩
    change held (units (.finite s m e hm)) = held (nearest (units (.finite s m e hm) + 0))
    rw [Int.add_zero, nearest_units hu]
  case finite.finite =>
    -- the two mantissas are moved to the smaller exponent
    have he := hu.1.le
    have hf := hv.1.le
    have hscale := apply_shiftLeft s m (e := e) (k := (e - min e f).toNat) (by omega)
    have hscale' := apply_shiftLeft t n (e := f) (k := (f - min e f).toNat) (by omega)
    have hmin : e - (e - min e f).toNat = min e f := by omega
    have hmin' : f - (f - min e f).toNat = min e f := by omega
    have hnormalize := normalize_spec
      (s.apply (m <<< (e - min e f).toNat) + t.apply (n <<< (f - min e f).toNat))
      (e := min e f) (by omega) .positive
    rw [hmin] at hscale
    rw [hmin'] at hscale'
    rw [Int.add_mul, hscale, hscale'] at hnormalize
    exact ⟨hnormalize.1, congrArg held hnormalize.2⟩

/-- What is taken away is added on the other side of zero. -/
theorem sub_eq_add_neg (format : Format) (u v : UnpackedFloat) :
    UnpackedFloat.sub format u v = UnpackedFloat.add format u v.neg := by
  rcases u with s | _ | s | ⟨s, m, e, hm⟩ <;> rcases v with t | _ | t | ⟨t, n, f, hn⟩
  case finite.finite =>
    rw [UnpackedFloat.neg, UnpackedFloat.sub, UnpackedFloat.add]
    simp only [apply_neg, Int.sub_eq_add_neg]
  all_goals rfl

/-- A sum is no number only if one of the two is none, or if they are infinities that cancel. -/
theorem isNaN_unpacked_add_of_ne {format : Format} (hu : u.isNaN = false) (hv : v.isNaN = false)
    (hne : ∀ s, u = .infinity s → v ≠ .infinity (-s)) :
    (UnpackedFloat.add format u v).isNaN = false := by
  cases u with
  | notANumber => cases hu
  | zero | finite => exact isNaN_unpacked_add rfl hv
  | infinity s =>
    cases v with
    | notANumber => cases hv
    | zero | finite => rfl
    | infinity t =>
      have hst := hne s rfl
      cases s <;> cases t <;> first | rfl | exact absurd rfl hst

/-! ## Sums and differences of numbers -/

variable {a b c d : Float32}

/-- Units rounded to those of a number. -/
def fit (n : ℤ) : ℤ := held (nearest n)

/-- **Rounding units to a number keeps their order.** -/
theorem fit_mono : Monotone fit := held_mono.comp nearest_mono

theorem fit_amount (a : Float32) : fit (amount a) = amount a := by
  rw [fit, amount, nearest_units (fits_toModel_unpack a), held_units (fits_toModel_unpack a)]

theorem isNaN_of_unpack_pack (h : (Float32.Model.pack u).unpack.isNaN = false) :
    u.isNaN = false := by
  cases u with
  | notANumber => exact h
  | _ => rfl

theorem amount_add (h : (a + b).isNaN = false) : amount (a + b) = fit (amount a + amount b) := by
  have hadd := add_spec (fits_toModel_unpack a) (fits_toModel_unpack b) (isNaN_of_unpack_pack h)
  exact (units_unpack_pack hadd.1).trans hadd.2

theorem amount_sub (h : (a - b).isNaN = false) : amount (a - b) = fit (amount a - amount b) := by
  have hnumber : (UnpackedFloat.sub Format.binary32 a.toModel.unpack
      b.toModel.unpack).isNaN = false := isNaN_of_unpack_pack h
  rw [sub_eq_add_neg] at hnumber
  have hadd := add_spec (fits_toModel_unpack a) (fits_neg (fits_toModel_unpack b)) hnumber
  rw [← sub_eq_add_neg, units_neg] at hadd
  exact (units_unpack_pack hadd.1).trans hadd.2

/-- **Adding keeps the order.** -/
theorem add_le_add (hab : a ≤ b) (hcd : c ≤ d) (hac : (a + c).isNaN = false)
    (hbd : (b + d).isNaN = false) : a + c ≤ b + d := by
  rw [le_iff_amount, amount_add hac, amount_add hbd]
  exact ⟨⟨hac, hbd⟩, fit_mono (Int.add_le_add (le_iff_amount.mp hab).2 (le_iff_amount.mp hcd).2)⟩

theorem amount_zero : amount 0 = 0 := by rfl

/-- **What is not negative does not lower what it is added to.** -/
theorem le_add (ha : a.isNaN = false) (hb : 0 ≤ b) (hab : (a + b).isNaN = false) : a ≤ a + b := by
  have hpos : 0 ≤ amount b := amount_zero.symm.trans_le (le_iff_amount.mp hb).2
  rw [le_iff_amount, amount_add hab, ← fit_amount a]
  exact ⟨⟨ha, hab⟩, fit_mono (by rw [fit_amount]; omega)⟩

/-- **What is not negative does not raise what it is taken from.** -/
theorem sub_le (ha : a.isNaN = false) (hb : 0 ≤ b) (hab : (a - b).isNaN = false) : a - b ≤ a := by
  have hpos : 0 ≤ amount b := amount_zero.symm.trans_le (le_iff_amount.mp hb).2
  rw [le_iff_amount, amount_sub hab, ← fit_amount a]
  exact ⟨⟨hab, ha⟩, fit_mono (by rw [fit_amount]; omega)⟩

/-- A sum with what is no number is none. -/
theorem add_of_isNaN (a : Float32) (hb : b.isNaN = true) : a + b = Float32.nan := by
  have hnone : b.toModel.unpack = .notANumber := UnpackedFloat.isNaN_iff.mp hb
  have hadd (u : UnpackedFloat) :
      UnpackedFloat.add Format.binary32 u .notANumber = .notANumber := by
    cases u <;> rfl
  change Float32.ofModel (Float32.Model.pack (UnpackedFloat.add Format.binary32 _ _)) = _
  rw [hnone, hadd]
  decide

/-- Any number and a finite one have a sum. -/
theorem isNaN_add_right (ha : a.isNaN = false) (hb : b.isFinite = true) :
    (a + b).isNaN = false := by
  have hfinite : b.toModel.unpack.isFinite = true := hb
  refine isNaN_unpack_pack (isNaN_unpacked_add_of_ne ha ?_ fun s _ heq => ?_)
  · cases hv : b.toModel.unpack with
    | notANumber => rw [hv] at hfinite; cases hfinite
    | _ => rfl
  · rw [heq] at hfinite
    cases hfinite

/-- **What is not negative can be taken from anything below a finite number.** -/
theorem isNaN_sub (hac : a ≤ c) (hc : c.isFinite = true) (hb : 0 ≤ b) : (a - b).isNaN = false := by
  have hlimit := limit_pos
  have hlow : 0 ≤ amount b := amount_zero.symm.trans_le (le_iff_amount.mp hb).2
  have hhigh : amount a < limit := by
    refine (le_iff_amount.mp hac).2.trans_lt ?_
    have hspan := units_mem_span (fits_toModel_unpack c)
    change c.toModel.unpack.isFinite = true at hc
    rw [amount]
    generalize c.toModel.unpack = u at hc hspan ⊢
    rcases u with _ | _ | _ | ⟨_ | _, _, _, _⟩
    case infinity | notANumber => cases hc
    all_goals simp only [span] at hspan; omega
  have hnumber : b.toModel.unpack.neg.isNaN = false := by
    have hb' : b.toModel.unpack.isNaN = false := (le_iff.mp hb).1.2
    cases hv : b.toModel.unpack with
    | notANumber => rw [hv] at hb'; cases hb'
    | _ => rfl
  refine isNaN_unpack_pack ?_
  rw [sub_eq_add_neg]
  refine isNaN_unpacked_add_of_ne (le_iff.mp hac).1.1 hnumber fun s heq hneg => ?_
  have hunits : units b.toModel.unpack.neg = units (.infinity (-s)) := congrArg units hneg
  rw [units_neg] at hunits
  rw [amount, heq] at hhigh
  rw [amount] at hlow
  cases s with
  | positive =>
    change 2 * (limit : ℤ) < limit at hhigh
    omega
  | negative =>
    change -units b.toModel.unpack = 2 * (limit : ℤ) at hunits
    omega

end BlockCoding.Single
