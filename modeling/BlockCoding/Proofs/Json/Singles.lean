import BlockCoding.Json.Single
import BlockCoding.Proofs.Json.Records
import BlockCoding.Proofs.Single.Decimals

/-!
# Proofs/Json/Singles — single-precision numbers in documents

The literal of digits and a place stands for exactly that decimal, however it is laid out
(`Layout.spells_number`).  So the literal of a number is a decimal that stands for the number, and a
document holds every finite number that is written to it (`holds_single`).
-/

namespace BlockCoding.Json

/-! ## Digits -/

variable {digits fraction : List Nat} {n whole : Nat}

theorem digitsValue_append_singleton (digits : List Nat) (d : Nat) :
    digitsValue (digits ++ [d]) = 10 * digitsValue digits + d := by
  rw [digitsValue, List.foldl_append]
  rfl

/-- The digits after some others count by their places. -/
theorem digitsValue_append (digits fraction : List Nat) :
    digitsValue (digits ++ fraction)
      = digitsValue digits * 10 ^ fraction.length + digitsValue fraction := by
  induction fraction using List.reverseRecOn with
  | nil => simp [digitsValue]
  | append_singleton fraction d ih =>
    rw [← List.append_assoc, digitsValue_append_singleton, digitsValue_append_singleton, ih,
      List.length_append, List.length_singleton, pow_succ]
    ring

theorem digitsValue_replicate_zero (k : Nat) : digitsValue (List.replicate k 0) = 0 := by
  induction k with
  | zero => rfl
  | succ k ih => rw [List.replicate_succ', digitsValue_append_singleton, ih]

theorem digitsValue_lt (h : ∀ d ∈ digits, d < 10) : digitsValue digits < 10 ^ digits.length := by
  induction digits using List.reverseRecOn with
  | nil => decide
  | append_singleton digits d ih =>
    have hrest := ih fun e he => h e (List.mem_append_left _ he)
    have hlast := h d (List.mem_append_right _ (List.mem_singleton_self d))
    rw [digitsValue_append_singleton, List.length_append, List.length_singleton, pow_succ]
    omega

theorem digitsValue_digitsOf (n : Nat) : digitsValue (digitsOf n) = n := digitsValue_natChars n

theorem digitsOf_lt (n : Nat) : ∀ d ∈ digitsOf n, d < 10 := by
  intro d hd
  obtain ⟨c, hc, rfl⟩ := List.mem_map.mp hd
  have hdigit := isDigit_of_mem_natChars hc
  rw [Char.isDigit, Bool.and_eq_true, decide_eq_true_eq, decide_eq_true_eq] at hdigit
  have hlast : c.toNat ≤ '9'.toNat := UInt32.le_iff_toNat_le.mp hdigit.2
  change c.toNat - 48 < 10
  change c.toNat ≤ 57 at hlast
  omega

/-- The digits that are trimmed are zeros. -/
theorem exists_digitsOf_eq (n : Nat) : ∃ k, digitsOf n = trimmedDigits n ++ List.replicate k 0 := by
  obtain ⟨zeros, hzeros⟩ : ∃ zeros, zeros = (digitsOf n).reverse.takeWhile (· == 0) := ⟨_, rfl⟩
  have hall : zeros = List.replicate zeros.length 0 := by
    refine List.eq_replicate_iff.mpr ⟨rfl, fun d hd => ?_⟩
    rw [hzeros] at hd
    simpa using List.mem_takeWhile_imp hd
  refine ⟨zeros.length, ?_⟩
  have hsplit := List.takeWhile_append_dropWhile (p := (· == 0)) (l := (digitsOf n).reverse)
  rw [← List.reverse_inj, List.reverse_append, List.reverse_replicate, ← hall, hzeros,
    trimmedDigits, List.reverse_reverse, hsplit]

/-! ## The decimal of a literal -/

theorem appendDigits_eq (h : n * 10 ^ digits.length + digitsValue digits < UInt64.size) :
    Decimal.appendDigits n digits = (n * 10 ^ digits.length + digitsValue digits, []) := by
  induction digits generalizing n with
  | nil => simp [Decimal.appendDigits, digitsValue]
  | cons d digits ih =>
    have hvalue : n * 10 ^ (d :: digits).length + digitsValue (d :: digits)
        = (10 * n + d) * 10 ^ digits.length + digitsValue digits := by
      rw [← List.singleton_append, digitsValue_append, List.length_append, pow_add]
      simp only [digitsValue, List.foldl_cons, List.foldl_nil, List.length_singleton]
      ring
    rw [hvalue] at h ⊢
    have hroom : 10 * n + d < UInt64.size :=
      (Nat.le_mul_of_pos_right _ (Nat.pow_pos (by decide))).trans (Nat.le_add_right _ _)
        |>.trans_lt h
    rw [Decimal.appendDigits, if_pos hroom, ih h]

/-- **A literal with room for its digits stands for all of them.** -/
theorem decimal_eq (negative : Bool) (exponent : Option Int)
    (h : whole * 10 ^ fraction.length + digitsValue fraction < UInt64.size) :
    (Number.mk negative whole fraction exponent).decimal
      = ⟨negative, whole * 10 ^ fraction.length + digitsValue fraction,
        exponent.getD 0 - fraction.length⟩ := by
  have hwhole : whole < UInt64.size :=
    (Nat.le_mul_of_pos_right _ (Nat.pow_pos (by decide))).trans (Nat.le_add_right _ _)
      |>.trans_lt h
  have hkept : Decimal.appendDigits 0 (digitsOf whole) = (whole, []) := by
    have hvalue := digitsValue_digitsOf whole
    rw [appendDigits_eq (by rw [zero_mul, zero_add, hvalue]; exact hwhole), zero_mul, zero_add,
      hvalue]
  rw [Number.decimal, Decimal.ofDigits]
  simp only [hkept, appendDigits_eq h, List.length_nil, Nat.sub_zero, Nat.cast_zero, add_zero]

/-- A literal of digits that stands for a number and is no integer, in the range that is rounded
at most twice. -/
structure Number.Spells (n : Number) (negative : Bool) (v : ℚ) : Prop where
  legible : n.Legible
  not_int : (number n).int? = none
  negative_eq : n.decimal.negative = negative
  value_eq : n.decimal.value = v
  pos : 0 < n.decimal.mantissa
  lt : n.decimal.mantissa < 2 ^ 53
  exponent_le : n.decimal.exponent.natAbs ≤ 54

/-- A literal spells the number of its digits. -/
theorem spells_of_digits (negative : Bool) {M : Nat} {exponent : Option Int} {e : Int}
    (hM : whole * 10 ^ fraction.length + digitsValue fraction = M)
    (he : exponent.getD 0 - fraction.length = e) (hpos : 0 < M) (hlt : M < 2 ^ 53)
    (hsmall : e.natAbs ≤ 54) (hfraction : ∀ d ∈ fraction, d < 10)
    (hpoint : fraction ≠ [] ∨ exponent ≠ none) :
    (Number.mk negative whole fraction exponent).Spells negative (M * 10 ^ e) := by
  have hdecimal : (Number.mk negative whole fraction exponent).decimal = ⟨negative, M, e⟩ := by
    rw [decimal_eq negative exponent (hM ▸ hlt.trans (by decide)), hM, he]
  have hint : (number (Number.mk negative whole fraction exponent)).int? = none := by
    rw [int?]
    rintro _ _ ⟨⟩
    simp at hpoint
  refine ⟨hfraction, hint, ?_, ?_, ?_, ?_, ?_⟩ <;> rw [hdecimal]
  · rfl
  · exact hpos
  · exact hlt
  · exact hsmall

section Layout

variable (negative : Bool) {e : Int} (hdigits : ∀ d ∈ digits, d < 10)
  (hpos : 0 < digitsValue digits) (hlength : digits.length ≤ 10)

include hdigits hlength

theorem digitsValue_room : digitsValue digits < 10 ^ 10 :=
  (digitsValue_lt hdigits).trans_le (Nat.pow_le_pow_right (by decide) hlength)

include hpos

/-- One digit, the point, the other digits and an exponent. -/
theorem spells_scientific (hlow : -54 ≤ e + 1 - digits.length) (hhigh : e ≤ 47) :
    (Number.mk negative (digitsValue (digits.take 1)) (digits.drop 1) (some e)).Spells negative
      (digitsValue digits * 10 ^ (e + 1 - digits.length)) := by
  have hroom := digitsValue_room hdigits hlength
  have hne : 0 < digits.length := by
    refine List.length_pos_iff.mpr ?_
    rintro rfl
    exact absurd hpos (by decide)
  refine spells_of_digits negative ?_ ?_ hpos (by omega) (by omega)
    (fun d hd => hdigits d (List.mem_of_mem_drop hd)) (.inr (by simp))
  · rw [← digitsValue_append, List.take_append_drop]
  · rw [List.length_drop, Option.getD_some]
    omega

omit hlength in
/-- All digits before the point, with zeros up to it and one after it. -/
theorem spells_whole {places : Nat} (hplaces : digits.length ≤ places) (hfew : places ≤ 13) :
    (Number.mk negative (digitsValue (digits ++ List.replicate (places - digits.length) 0)) [0]
      none).Spells negative (digitsValue digits * 10 ^ (places - digits.length : Int)) := by
  obtain ⟨zeros, rfl⟩ : ∃ zeros, places = digits.length + zeros :=
    ⟨places - digits.length, by omega⟩
  have hzeros : digits.length + zeros - digits.length = zeros := Nat.add_sub_cancel_left ..
  have hM : digitsValue (digits ++ List.replicate zeros 0) * 10 ^ [0].length + digitsValue [0]
      = digitsValue digits * 10 ^ (zeros + 1) := by
    rw [digitsValue_append, digitsValue_replicate_zero, List.length_replicate, pow_succ]
    simp [digitsValue, mul_assoc]
  have hlt : digitsValue digits * 10 ^ (zeros + 1) < 2 ^ 53 :=
    calc digitsValue digits * 10 ^ (zeros + 1)
        < 10 ^ digits.length * 10 ^ (zeros + 1) :=
          Nat.mul_lt_mul_of_pos_right (digitsValue_lt hdigits) (Nat.pow_pos (by decide))
      _ = 10 ^ (digits.length + zeros + 1) := by rw [← pow_add, add_assoc]
      _ ≤ 10 ^ 14 := Nat.pow_le_pow_right (by decide) (by omega)
      _ < 2 ^ 53 := by decide
  have he : (none : Option Int).getD 0 - ([0] : List Nat).length = -1 := rfl
  have h := spells_of_digits negative hM he (Nat.mul_pos hpos (Nat.pow_pos (by decide))) hlt
    (by decide) (by decide) (.inl (by decide))
  have hvalue : ((digitsValue digits * 10 ^ (zeros + 1) : Nat) : ℚ) * 10 ^ (-1 : Int)
      = digitsValue digits * 10 ^ ((digits.length + zeros : Nat) - digits.length : Int) := by
    have hcount : ((digits.length + zeros : Nat) - digits.length : Int) = zeros := by omega
    rw [hcount, zpow_natCast]
    push_cast
    rw [pow_succ]
    norm_num
    ring
  rwa [hzeros, ← hvalue]

/-- Some digits before the point and the others after it. -/
theorem spells_split {places : Nat} (hplaces : places < digits.length) :
    (Number.mk negative (digitsValue (digits.take places)) (digits.drop places) none).Spells
      negative (digitsValue digits * 10 ^ (places - digits.length : Int)) := by
  have hroom := digitsValue_room hdigits hlength
  refine spells_of_digits negative ?_ ?_ hpos (by omega) (by omega)
    (fun d hd => hdigits d (List.mem_of_mem_drop hd)) (.inl ?_)
  · rw [← digitsValue_append, List.take_append_drop]
  · rw [List.length_drop, Option.getD_none]
    omega
  · rw [ne_eq, List.drop_eq_nil_iff]
    omega

/-- All digits after the point, behind zeros. -/
theorem spells_fraction (zeros : Nat) (hfew : zeros ≤ 5) :
    (Number.mk negative 0 (List.replicate zeros 0 ++ digits) none).Spells negative
      (digitsValue digits * 10 ^ (-zeros - digits.length : Int)) := by
  have hroom := digitsValue_room hdigits hlength
  refine spells_of_digits negative ?_ ?_ hpos (by omega) (by omega) ?_ (.inl ?_)
  · rw [digitsValue_append, digitsValue_replicate_zero, Nat.zero_mul, Nat.zero_mul, Nat.zero_add,
      Nat.zero_add]
  · rw [List.length_append, List.length_replicate, Option.getD_none]
    omega
  · intro d hd
    rcases List.mem_append.mp hd with hd | hd
    · rw [List.eq_of_mem_replicate hd]
      decide
    · exact hdigits d hd
  · rw [ne_eq, List.append_eq_nil_iff]
    rintro ⟨-, rfl⟩
    exact absurd hpos (by decide)

/-- **The literal of digits spells them, with the first digit in its place.** -/
theorem spells_number (hlow : -54 ≤ e + 1 - digits.length) (hhigh : e ≤ 47) :
    (singleLayout.number negative digits e).Spells negative
      (digitsValue digits * 10 ^ (e + 1 - digits.length)) := by
  rw [Layout.number]
  split_ifs with hexponent hnonneg
  · exact spells_scientific negative hdigits hpos hlength hlow hhigh
  all_goals change ¬ (e < -6 ∨ 12 < e) at hexponent
  · simp only [List.isEmpty_iff, List.drop_eq_nil_iff]
    have he : ((e.toNat + 1 : Nat) - digits.length : Int) = e + 1 - digits.length := by omega
    split_ifs with hplaces
    · have h := spells_whole negative hdigits hpos hplaces (by omega)
      rwa [List.take_of_length_le hplaces, ← he]
    · have h := spells_split negative hdigits hpos hlength (not_le.mp hplaces)
      rwa [Nat.sub_eq_zero_of_le (not_le.mp hplaces).le, List.replicate_zero, List.append_nil, ← he]
  · have h := spells_fraction negative hdigits hpos hlength ((-e).toNat - 1) (by omega)
    have he : (-((-e).toNat - 1 : Nat) - digits.length : Int) = e + 1 - digits.length := by omega
    rwa [← he]

end Layout

/-! ## The literal of a number -/

open Single (Denotes Normal ofDigits isNegative besideCloseCalls)
open Float.Model.UnpackedFloat (Sign)

variable {m c : Nat} {q k : Int}

/-- A decimal is spelled by its trimmed digits. -/
theorem spells_decimal (negative : Bool) (h : Denotes m q c k) :
    (singleLayout.number negative (trimmedDigits c) (k + (Nat.toDigits 10 c).length - 1)).Spells
      negative (c * 10 ^ k) := by
  obtain ⟨zeros, hzeros⟩ := exists_digitsOf_eq c
  have hvalue : digitsValue (trimmedDigits c) * 10 ^ zeros = c := by
    have hc := digitsValue_digitsOf c
    rwa [hzeros, digitsValue_append, digitsValue_replicate_zero, List.length_replicate,
      Nat.add_zero] at hc
  have hcount : (Nat.toDigits 10 c).length = (trimmedDigits c).length + zeros := by
    have hlength := congrArg List.length hzeros
    rwa [digitsOf, List.length_map, List.length_append, List.length_replicate] at hlength
  have hten : (Nat.toDigits 10 c).length ≤ 10 :=
    Nat.toDigits_length 10 c 10 (by decide) (h.le.trans_lt (by decide))
  have hdigits (d : Nat) (hd : d ∈ trimmedDigits c) : d < 10 :=
    digitsOf_lt c d (hzeros ▸ List.mem_append_left _ hd)
  have hpos : 0 < digitsValue (trimmedDigits c) :=
    Nat.pos_of_mul_pos_right (hvalue.symm ▸ h.pos)
  have hleast := h.least
  have hgreatest := h.greatest
  have hplace : k + (Nat.toDigits 10 c).length - 1 + 1 - (trimmedDigits c).length = k + zeros := by
    omega
  have hsame : (digitsValue (trimmedDigits c) : ℚ) * 10 ^ (k + zeros) = c * 10 ^ k := by
    have hc : (digitsValue (trimmedDigits c) : ℚ) * 10 ^ zeros = c := by exact_mod_cast hvalue
    rw [zpow_add₀ (by norm_num), zpow_natCast, ← hc]
    ring
  have hspells := spells_number negative hdigits hpos (by omega)
    (e := k + (Nat.toDigits 10 c).length - 1) (by omega) (by omega)
  rwa [hplace, hsame] at hspells

/-- The literal of a number spells a decimal that stands for it. -/
theorem singleNumber_ofDigits (s : Sign) (hm : 0 < m) (hnormal : Normal m q) (hq : q ≤ 104) :
    (singleNumber (ofDigits s m q hm)).Spells (isNegative s)
      ((Single.shortest m q).1 * 10 ^ (Single.shortest m q).2) := by
  rw [singleNumber, Single.dyadic_ofDigits s hm hnormal hq]
  simp only [if_neg hm.ne']
  exact spells_decimal _ (Single.denotes_shortest hm hnormal hq)

/-- It is read as the number, save for the numbers beside a close call. -/
theorem single?_singleNumber (s : Sign) (hm : 0 < m) (hnormal : Normal m q) (hq : q ≤ 104)
    (hcall : (m, q) ∉ besideCloseCalls) :
    (singleNumber (ofDigits s m q hm)).single? = some (ofDigits s m q hm) := by
  have h := singleNumber_ofDigits s hm hnormal hq
  rw [Number.single?, h.not_int]
  exact Single.toSingle?_of_denotes (Single.denotes_shortest hm hnormal hq) hm hnormal hq hcall
    h.pos h.lt h.exponent_le h.value_eq s h.negative_eq

theorem eq_some_of_toBits {a? : Option Float32} {a : Float32}
    (h : a?.map Float32.toBits = some a.toBits) : a? = some a := by
  obtain ⟨b, rfl, hb⟩ := Option.map_eq_some_iff.mp h
  exact congrArg some (Float32.toBits_inj.mp hb)

/-- Beside a close call it is tried. -/
theorem single?_besideCloseCalls (s : Sign) (hm : 0 < m) (hcall : (m, q) ∈ besideCloseCalls) :
    (singleNumber (ofDigits s m q hm)).single? = some (ofDigits s m q hm) := by
  have htried : ∀ s ∈ [Sign.positive, Sign.negative], ∀ p ∈ besideCloseCalls, ∀ hm : 0 < p.1,
      ((singleNumber (ofDigits s p.1 p.2 hm)).single?).map Float32.toBits
        = some (ofDigits s p.1 p.2 hm).toBits := by decide +kernel
  exact eq_some_of_toBits (htried s (by cases s <;> decide) (m, q) hcall hm)

/-- So is a zero. -/
theorem single?_zero {x : Float32} {s : Sign} (h : x.toModel.unpack = .zero s) :
    (singleNumber x).single? = some x ∧ (singleNumber x).Legible := by
  have hzero : x = .ofModel (.pack (.zero s)) := by
    refine Single.eq_of_unpack_eq (h.trans ?_)
    cases s <;> rfl
  subst hzero
  refine ⟨eq_some_of_toBits ?_, ?_⟩
  · cases s <;> decide +kernel
  · cases s <;> exact fun d hd => by rw [List.mem_singleton.mp hd]; decide

/-- **A document holds every finite number that is written to it.** -/
theorem holds_single {x : Float32} (hx : x.isFinite = true) : (ofSingle x).Holds single? x := by
  have hnumber : (singleNumber x).single? = some x ∧ (singleNumber x).Legible := by
    rcases Single.exists_ofDigits hx with ⟨s, hzero⟩ | ⟨s, m, q, hm, hnormal, hq, rfl⟩
    · exact single?_zero hzero
    · refine ⟨?_, (singleNumber_ofDigits s hm hnormal hq).legible⟩
      by_cases hcall : (m, q) ∈ besideCloseCalls
      · exact single?_besideCloseCalls s hm hcall
      · exact single?_singleNumber s hm hnormal hq hcall
  rw [ofSingle, if_pos hx]
  exact ⟨.number hnumber.2, hnumber.1⟩

end BlockCoding.Json
