import BlockCoding.Json.Printer
import BlockCoding.Json.Reader

/-!
# Proofs/Json/Literals — the literals of a document are read as they are written

A number ends where nothing follows that could belong to it (`EndsNumber`), a string literal at its
closing quote.  Main statements: `readNumber_chars` for every number whose fraction has decimal
digits, `Text.legible_encode` for the literal of every string.
-/

namespace BlockCoding.Json

/-! ## Digits -/

theorem digitsValue_chars (cs : List Char) :
    digitsValue (cs.map fun c => c.toNat - '0'.toNat) = Nat.ofDigitChars 10 cs 0 := by
  rw [digitsValue, List.foldl_map, Nat.ofDigitChars_eq_foldl]

theorem digitsValue_natChars (n : Nat) :
    digitsValue ((natChars n).map fun c => c.toNat - '0'.toNat) = n :=
  (digitsValue_chars _).trans Nat.ofDigitChars_ten_toDigits

theorem isDigit_of_mem_natChars {n : Nat} {c : Char} (hc : c ∈ natChars n) : c.isDigit = true :=
  Nat.isDigit_of_mem_toDigits (by decide) (by decide) hc

theorem exists_natChars (n : Nat) : ∃ c cs, natChars n = c :: cs ∧ c.isDigit = true := by
  cases h : natChars n with
  | nil => exact absurd h Nat.toDigits_ne_nil
  | cons c cs => exact ⟨c, cs, rfl, isDigit_of_mem_natChars (h ▸ List.mem_cons_self)⟩

/-- A number other than zero does not start with a zero.  The induction takes off the last digit. -/
theorem head?_natChars {n : Nat} (hn : 0 < n) : (natChars n).head? ≠ some '0' := by
  induction n using Nat.strongRecOn with
  | ind n ih =>
    rcases Nat.lt_or_ge n 10 with hlt | hge
    · rw [natChars, Nat.toDigits_of_lt_base hlt]
      have hdigit : ∀ d < 10, 0 < d → some d.digitChar ≠ some '0' := by decide
      exact hdigit n hlt hn
    · have hfirst := ih (n / 10) (by omega) (by omega)
      rw [natChars, Nat.toDigits_of_base_le (by decide) hge, List.head?_append]
      rw [natChars] at hfirst
      cases h : (Nat.toDigits 10 (n / 10)).head? with
      | none => exact absurd (List.head?_eq_none_iff.mp h) Nat.toDigits_ne_nil
      | some c => simpa [h] using hfirst

theorem digitChar_toNat {d : Nat} (hd : d < 10) : d.digitChar.toNat - '0'.toNat = d := by
  have hall : ∀ d < 10, d.digitChar.toNat - '0'.toNat = d := by decide
  exact hall d hd

theorem isDigit_digitChar {d : Nat} (hd : d < 10) : d.digitChar.isDigit = true := by
  have hall : ∀ d < 10, d.digitChar.isDigit = true := by decide
  exact hall d hd

/-- The only digit of value zero. -/
theorem eq_zero_of_digit {c : Char} (hc : c.isDigit = true) (h : c.toNat - '0'.toNat = 0) :
    c = '0' := by
  have hleast : '0'.toNat ≤ c.toNat := by
    rw [Char.isDigit, Bool.and_eq_true, decide_eq_true_eq] at hc
    exact UInt32.le_iff_toNat_le.mp hc.1
  exact Char.toNat_inj.mp (Nat.le_antisymm (Nat.sub_eq_zero_iff_le.mp h) hleast)

/-- Digits end where no further digit follows. -/
theorem spanDigits_append {ds rest : List Char} (hds : ∀ c ∈ ds, c.isDigit = true)
    (hrest : ∀ c ∈ rest.head?, c.isDigit = false) :
    spanDigits (ds ++ rest) = (ds.map fun c => c.toNat - '0'.toNat, rest) := by
  have hstop : rest.takeWhile Char.isDigit = [] ∧ rest.dropWhile Char.isDigit = rest := by
    cases rest with
    | nil => exact ⟨rfl, rfl⟩
    | cons c cs => simp [hrest c rfl]
  rw [spanDigits, List.takeWhile_append_of_pos hds, List.dropWhile_append_of_pos hds, hstop.1,
    hstop.2, List.append_nil]

/-! ## Numbers -/

/-- Whether nothing follows a number that could belong to it. -/
def EndsNumber (rest : List Char) : Prop :=
  ∀ c ∈ rest.head?, c.isDigit = false ∧ c ≠ '.' ∧ c ≠ 'e' ∧ c ≠ 'E'

/-- Whether a number can be written: the fraction has decimal digits. -/
def Number.Legible (n : Number) : Prop := ∀ d ∈ n.fraction, d < 10

/-- The characters of a fraction. -/
def fractionChars (fraction : List Nat) : List Char :=
  if fraction.isEmpty then [] else '.' :: fraction.map Nat.digitChar

/-- The characters of an exponent. -/
def exponentChars : Option Int → List Char
  | none => []
  | some e => 'e' :: (if e < 0 then '-' else '+') :: natChars e.natAbs

theorem Number.chars_eq (n : Number) :
    n.chars = (if n.negative then ['-'] else []) ++ (natChars n.whole
      ++ (fractionChars n.fraction ++ exponentChars n.exponent)) := by
  obtain ⟨negative, whole, fraction, exponent⟩ := n
  cases exponent <;> simp only [chars, fractionChars, exponentChars, List.append_assoc]

variable {rest : List Char}

theorem readExponentDigits_natChars (negative : Bool) (n : Nat) (hrest : EndsNumber rest) :
    readExponentDigits negative (natChars n ++ rest)
      = some (some (if negative then -(n : Int) else n), rest) := by
  have hspan := spanDigits_append (fun c => isDigit_of_mem_natChars (n := n)) fun c hc =>
    (hrest c hc).1
  have hsome : natChars n ≠ [] := Nat.toDigits_ne_nil
  rw [readExponentDigits, hspan]
  simp only [List.isEmpty_map, List.isEmpty_iff, hsome, if_false, digitsValue_natChars]

theorem readExponent_exponentChars (exponent : Option Int) (hrest : EndsNumber rest) :
    readExponent (exponentChars exponent ++ rest) = some (exponent, rest) := by
  cases exponent with
  | none =>
    rw [exponentChars, List.nil_append, readExponent.eq_def]
    split
    · exact absurd rfl (hrest 'e' rfl).2.2.1
    · exact absurd rfl (hrest 'E' rfl).2.2.2
    · rfl
  | some e =>
    rcases Int.lt_or_le e 0 with hneg | hpos
    · have hdigits := readExponentDigits_natChars true e.natAbs hrest
      have he : -(e.natAbs : Int) = e := by omega
      rw [if_pos rfl, he] at hdigits
      simpa [exponentChars, hneg, readExponent] using hdigits
    · have hdigits := readExponentDigits_natChars false e.natAbs hrest
      have he : (e.natAbs : Int) = e := by omega
      rw [if_neg (by decide), he] at hdigits
      simpa [exponentChars, Int.not_lt.mpr hpos, readExponent] using hdigits

theorem readFraction_fractionChars {fraction : List Nat} (hfraction : ∀ d ∈ fraction, d < 10)
    (hrest : ∀ c ∈ rest.head?, c.isDigit = false ∧ c ≠ '.') :
    readFraction (fractionChars fraction ++ rest) = some (fraction, rest) := by
  rw [fractionChars]
  cases hempty : fraction.isEmpty with
  | true =>
    obtain rfl := List.isEmpty_iff.mp hempty
    rw [if_pos rfl, List.nil_append, readFraction.eq_def]
    split
    · exact absurd rfl (hrest '.' rfl).2
    · rfl
  | false =>
    have hdigits : ∀ c ∈ fraction.map Nat.digitChar, c.isDigit = true := by
      intro c hc
      obtain ⟨d, hd, rfl⟩ := List.mem_map.mp hc
      exact isDigit_digitChar (hfraction d hd)
    have hback : (fraction.map Nat.digitChar).map (fun c => c.toNat - '0'.toNat) = fraction := by
      rw [List.map_map]
      exact (List.map_congr_left fun d hd => digitChar_toNat (hfraction d hd)).trans
        (List.map_id _)
    have hspan := spanDigits_append hdigits fun c hc => (hrest c hc).1
    rw [hback] at hspan
    rw [if_neg (by decide), List.cons_append, readFraction, hspan]
    simp only [hempty, Bool.false_eq_true, if_false]

/-- Neither a digit nor a point follows a fraction. -/
theorem endsFraction_exponent (exponent : Option Int) (hrest : EndsNumber rest) :
    ∀ c ∈ (exponentChars exponent ++ rest).head?, c.isDigit = false ∧ c ≠ '.' := by
  cases exponent with
  | none => exact fun c hc => ⟨(hrest c hc).1, (hrest c hc).2.1⟩
  | some e =>
    rintro c hc
    obtain rfl : 'e' = c := Option.some.inj hc
    decide

/-- No digit follows a whole part. -/
theorem endsWhole_fraction (fraction : List Nat)
    (hrest : ∀ c ∈ rest.head?, c.isDigit = false ∧ c ≠ '.') :
    ∀ c ∈ (fractionChars fraction ++ rest).head?, c.isDigit = false := by
  cases fraction with
  | nil => exact fun c hc => (hrest c hc).1
  | cons d fraction =>
    rintro c hc
    obtain rfl : '.' = c := Option.some.inj hc
    rfl

/-- The whole part of a number is one that may be read: it has a digit, and no zero before
another one. -/
theorem natChars_admitted (n : Nat) {digits : List Nat}
    (hdigits : digits = (natChars n).map fun c => c.toNat - '0'.toNat) :
    (digits.isEmpty || (1 < digits.length && digits.head? == some 0)) = false := by
  rcases Nat.eq_zero_or_pos n with rfl | hn
  · rw [hdigits]
    decide
  · obtain ⟨c, cs, hcs, hc⟩ := exists_natChars n
    have hfirst := head?_natChars hn
    rw [hcs, List.head?_cons, ne_eq, Option.some.injEq] at hfirst
    have hvalue : some (c.toNat - '0'.toNat) ≠ some 0 := fun h =>
      hfirst (eq_zero_of_digit hc (Option.some.inj h))
    rw [hdigits, hcs, List.map_cons, List.isEmpty_cons, List.head?_cons, beq_false_of_ne hvalue,
      Bool.and_false, Bool.or_self]

theorem readMagnitude_chars (negative : Bool) (whole : Nat) {fraction : List Nat}
    (exponent : Option Int) (hfraction : ∀ d ∈ fraction, d < 10) (hrest : EndsNumber rest) :
    readMagnitude negative
        (natChars whole ++ (fractionChars fraction ++ (exponentChars exponent ++ rest)))
      = some (⟨negative, whole, fraction, exponent⟩, rest) := by
  have hexponent := endsFraction_exponent exponent hrest
  have hspan := spanDigits_append (fun c => isDigit_of_mem_natChars (n := whole))
    (endsWhole_fraction fraction hexponent)
  rw [readMagnitude, hspan]
  simp only [natChars_admitted whole rfl, Bool.false_eq_true, if_false, digitsValue_natChars,
    Option.bind_eq_bind, readFraction_fractionChars hfraction hexponent, Option.bind_some,
    readExponent_exponentChars exponent hrest]
  rfl

/-- **A number is read as it is written.** -/
theorem readNumber_chars {n : Number} (hn : n.Legible) (hrest : EndsNumber rest) :
    readNumber (n.chars ++ rest) = some (n, rest) := by
  obtain ⟨negative, whole, fraction, exponent⟩ := n
  have hmagnitude := readMagnitude_chars negative whole exponent hn hrest
  rw [Number.chars_eq, List.append_assoc, List.append_assoc, List.append_assoc]
  cases negative with
  | true => exact hmagnitude
  | false =>
    obtain ⟨c, cs, hcs, hc⟩ := exists_natChars whole
    rw [if_neg Bool.false_ne_true, List.nil_append]
    rw [hcs, List.cons_append] at hmagnitude ⊢
    rw [readNumber, hmagnitude]
    rintro _ hminus
    obtain rfl := (List.cons.inj hminus).1
    exact absurd hc (by decide)

namespace Text

/-! ## Strings -/

/-- Whether a literal can be written: it ends at its closing quote and not before. -/
def Legible (t : Text) : Prop := ∀ rest, scan (t.body ++ '"' :: rest) = some (t.body, rest)

/-- A control character is split off with its four digits. -/
theorem scan_control (n : Fin 32) (cs : List Char) :
    scan ('\\' :: 'u' :: '0' :: '0' :: Nat.digitChar (n / 16) :: Nat.digitChar (n % 16) :: cs)
      = (scan cs).map fun (body, rest) =>
        ('\\' :: 'u' :: '0' :: '0' :: Nat.digitChar (n / 16) :: Nat.digitChar (n % 16) :: body,
          rest) := by
  have h : unit? '0' '0' (Nat.digitChar (n / 16)) (Nat.digitChar (n % 16)) = some n.val := by
    revert n; decide
  rw [scan, h]
  cases scan cs <;> rfl

/-- So is a one-letter escape. -/
theorem scan_escape {e c : Char} (he : unescape? e = some c) (cs : List Char) :
    scan ('\\' :: e :: cs) = (scan cs).map fun (body, rest) => ('\\' :: e :: body, rest) := by
  have hu : e ≠ 'u' := by rintro rfl; cases he
  rw [scan, he]
  · cases scan cs <;> rfl
  · exact fun _ _ _ _ _ h _ => hu h

/-- So is any other character. -/
theorem scan_plain {c : Char} (hquote : c ≠ '"') (hc : ¬(c = '\\' ∨ c.toNat < 0x20))
    (cs : List Char) :
    scan (c :: cs) = (scan cs).map fun (body, rest) => (c :: body, rest) := by
  rw [scan, if_neg hc]
  · cases scan cs <;> rfl
  · exact hquote
  · exact fun _ _ _ _ _ h _ => hc (.inl h)
  · exact fun _ _ h _ => hc (.inl h)

/-- What is written for a character is split off as a whole. -/
theorem scan_encodeChar (c : Char) (cs : List Char) :
    scan (encodeChar c ++ cs)
      = (scan cs).map fun (body, rest) => (encodeChar c ++ body, rest) := by
  unfold encodeChar
  split
  · exact scan_escape (c := '"') rfl cs
  split
  · exact scan_escape (c := '\\') rfl cs
  split
  · exact scan_escape rfl cs
  split
  · exact scan_escape rfl cs
  split
  · exact scan_escape rfl cs
  split
  · exact scan_escape rfl cs
  split
  · exact scan_escape rfl cs
  split
  · next h => exact scan_control ⟨c.toNat, h⟩ cs
  · next hquote hback _ _ _ _ _ hprint =>
    exact scan_plain hquote (not_or.mpr ⟨hback, hprint⟩) cs

/-- **The literal of every string can be written.** -/
theorem legible_encode (s : String) : (encode s).Legible := by
  intro rest
  rw [encode]
  induction s.toList with
  | nil => rfl
  | cons c cs ih =>
    rw [List.flatMap_cons, List.append_assoc, scan_encodeChar, ih]
    rfl

end Text

end BlockCoding.Json
