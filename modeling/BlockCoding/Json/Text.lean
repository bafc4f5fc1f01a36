/-!
# Json/Text — string literals as they are written

A `Text` holds the characters between the quotes of a string literal, escapes and all.
`Text.encode` writes a string, `Text.decode?` reads one; a literal with an unpaired surrogate
escape is well formed, but stands for no string.  Main statement: `decode?_encode`, reading gives
back what was written.
-/

namespace BlockCoding

/-- The characters between the quotes of a string literal. -/
structure Json.Text where
  body : List Char
  deriving DecidableEq, Repr

namespace Json.Text

/-! ## Escapes -/

/-- The character that a one-letter escape stands for. -/
def unescape? : Char → Option Char
  | '"' => some '"'
  | '\\' => some '\\'
  | '/' => some '/'
  | 'b' => some (Char.ofNat 8)
  | 'f' => some (Char.ofNat 12)
  | 'n' => some (Char.ofNat 10)
  | 'r' => some (Char.ofNat 13)
  | 't' => some (Char.ofNat 9)
  | _ => none

/-- The value of a hexadecimal digit of either case. -/
def hexValue? (c : Char) : Option Nat :=
  if '0' ≤ c ∧ c ≤ '9' then some (c.toNat - '0'.toNat)
  else if 'a' ≤ c ∧ c ≤ 'f' then some (c.toNat - 'a'.toNat + 10)
  else if 'A' ≤ c ∧ c ≤ 'F' then some (c.toNat - 'A'.toNat + 10)
  else none

/-- The number that four hexadecimal digits stand for. -/
def unit? (a b c d : Char) : Option Nat := do
  return (((← hexValue? a) * 16 + (← hexValue? b)) * 16 + (← hexValue? c)) * 16 + (← hexValue? d)

/-- Whether a code unit is the first of a surrogate pair. -/
def isHighSurrogate (unit : Nat) : Bool := 0xD800 ≤ unit && unit < 0xDC00

/-- Whether a code unit is the second of a surrogate pair. -/
def isLowSurrogate (unit : Nat) : Bool := 0xDC00 ≤ unit && unit < 0xE000

/-- The character of a surrogate pair. -/
def pairChar (high low : Nat) : Char :=
  Char.ofNat (0x10000 + (high - 0xD800) * 0x400 + (low - 0xDC00))

/-! ## Reading and writing -/

/-- Splits off a literal whose opening quote has been read: its body and what follows the closing
quote.  Control characters and unknown escapes are refused. -/
def scan : List Char → Option (List Char × List Char)
  | [] => none
  | '"' :: rest => some ([], rest)
  | '\\' :: 'u' :: a :: b :: c :: d :: rest => do
    let _ ← unit? a b c d
    let (body, rest) ← scan rest
    return ('\\' :: 'u' :: a :: b :: c :: d :: body, rest)
  | '\\' :: e :: rest => do
    let _ ← unescape? e
    let (body, rest) ← scan rest
    return ('\\' :: e :: body, rest)
  | c :: rest => do
    if c = '\\' ∨ c.toNat < 0x20 then failure
    let (body, rest) ← scan rest
    return (c :: body, rest)

/-- The characters that a body stands for. -/
def decodeChars? : List Char → Option (List Char)
  | [] => some []
  | '\\' :: 'u' :: a :: b :: c :: d :: rest => do
    let unit ← unit? a b c d
    if isHighSurrogate unit then
      match rest with
      | '\\' :: 'u' :: a :: b :: c :: d :: rest =>
        let low ← unit? a b c d
        if isLowSurrogate low then return pairChar unit low :: (← decodeChars? rest) else none
      | _ => none
    else if isLowSurrogate unit then none
    else return Char.ofNat unit :: (← decodeChars? rest)
  | '\\' :: e :: rest => return (← unescape? e) :: (← decodeChars? rest)
  | c :: rest => return c :: (← decodeChars? rest)

/-- The string that a literal stands for. -/
def decode? (t : Text) : Option String := (decodeChars? t.body).map String.ofList

/-- How a character is written: quotes, backslashes and control characters are escaped. -/
def encodeChar (c : Char) : List Char :=
  if c = '"' then ['\\', '"']
  else if c = '\\' then ['\\', '\\']
  else if c.toNat = 8 then ['\\', 'b']
  else if c.toNat = 12 then ['\\', 'f']
  else if c.toNat = 10 then ['\\', 'n']
  else if c.toNat = 13 then ['\\', 'r']
  else if c.toNat = 9 then ['\\', 't']
  else if c.toNat < 0x20 then
    ['\\', 'u', '0', '0', Nat.digitChar (c.toNat / 16), Nat.digitChar (c.toNat % 16)]
  else [c]

/-- Writes a string. -/
def encode (s : String) : Text := ⟨s.toList.flatMap encodeChar⟩

/-! ## Reading gives back what was written -/

/-- A control character is read back from its four digits. -/
theorem decodeChars?_control (n : Fin 32) (t : List Char) :
    decodeChars? ('\\' :: 'u' :: '0' :: '0' :: Nat.digitChar (n / 16) ::
      Nat.digitChar (n % 16) :: t) = (decodeChars? t).map (Char.ofNat n :: ·) := by
  have h : unit? '0' '0' (Nat.digitChar (n / 16)) (Nat.digitChar (n % 16)) = some n.val := by
    revert n; decide
  have h1 : isHighSurrogate n.val = false := by revert n; decide
  have h2 : isLowSurrogate n.val = false := by revert n; decide
  rw [decodeChars?.eq_2]
  cases decodeChars? t <;> simp [h, h1, h2]

/-- A one-letter escape is read as the character it stands for. -/
theorem decodeChars?_escape {e c : Char} (he : unescape? e = some c) (t : List Char) :
    decodeChars? ('\\' :: e :: t) = (decodeChars? t).map (c :: ·) := by
  have hu : e ≠ 'u' := by rintro rfl; simp [unescape?] at he
  rw [decodeChars?]
  · cases decodeChars? t <;> simp [he]
  · exact fun _ _ _ _ _ h _ => hu h

/-- Any other character stands for itself. -/
theorem decodeChars?_plain {c : Char} (hc : c ≠ '\\') (t : List Char) :
    decodeChars? (c :: t) = (decodeChars? t).map (c :: ·) := by
  rw [decodeChars?]
  · cases decodeChars? t <;> simp
  · intros; exact hc ‹_›
  · intros; exact hc ‹_›

/-- Reading undoes writing, character by character. -/
theorem decodeChars?_encodeChar (c : Char) (t : List Char) :
    decodeChars? (encodeChar c ++ t) = (decodeChars? t).map (c :: ·) := by
  have named {n : Nat} (h : c.toNat = n) : Char.ofNat n = c := by
    rw [← h]; exact Char.ofNat_toNat c
  unfold encodeChar
  split
  · next h => exact decodeChars?_escape (by rw [h]; rfl) t
  split
  · next h => exact decodeChars?_escape (by rw [h]; rfl) t
  split
  · next h => exact decodeChars?_escape (by rw [← named h]; rfl) t
  split
  · next h => exact decodeChars?_escape (by rw [← named h]; rfl) t
  split
  · next h => exact decodeChars?_escape (by rw [← named h]; rfl) t
  split
  · next h => exact decodeChars?_escape (by rw [← named h]; rfl) t
  split
  · next h => exact decodeChars?_escape (by rw [← named h]; rfl) t
  split
  · next h =>
    have := decodeChars?_control ⟨c.toNat, h⟩ t
    rwa [named rfl] at this
  · next hc _ _ _ _ _ _ => exact decodeChars?_plain hc t

theorem decodeChars?_flatMap (cs : List Char) :
    decodeChars? (cs.flatMap encodeChar) = some cs := by
  induction cs with
  | nil => rfl
  | cons c cs ih => rw [List.flatMap_cons, decodeChars?_encodeChar, ih]; rfl

/-- **Reading gives back what was written.** -/
@[simp] theorem decode?_encode (s : String) : (encode s).decode? = some s := by
  simp [decode?, encode, decodeChars?_flatMap, String.ofList_toList]

end Json.Text

end BlockCoding
