import BlockCoding.Json.Basic

/-!
# Json/Reader — from text to documents

`Json.read?` reads a whole text: one value, with blanks around it and nothing else.  The inner
readers return what follows the value they have read; each level of nesting and each element takes
one unit of fuel, and a text cannot ask for more of them than it has characters.
-/

namespace BlockCoding.Json

/-- The characters that may stand between the parts of a document. -/
def isBlank (c : Char) : Bool := c = ' ' || c = '\n' || c = '\t' || c = '\r'

/-- Drops leading blanks. -/
def skipBlanks (cs : List Char) : List Char := cs.dropWhile isBlank

/-! ## Numbers -/

/-- The leading decimal digits and what follows them. -/
def spanDigits (cs : List Char) : List Nat × List Char :=
  ((cs.takeWhile Char.isDigit).map fun c => c.toNat - '0'.toNat, cs.dropWhile Char.isDigit)

/-- Reads the digits of a fraction, if there is a point. -/
def readFraction : List Char → Option (List Nat × List Char)
  | '.' :: cs =>
    let (digits, rest) := spanDigits cs
    if digits.isEmpty then none else some (digits, rest)
  | cs => some ([], cs)

/-- Reads the digits of an exponent, with their sign. -/
def readExponentDigits (negative : Bool) (cs : List Char) : Option (Option Int × List Char) :=
  let (digits, rest) := spanDigits cs
  if digits.isEmpty then none
  else
    let value : Int := digitsValue digits
    some (some (if negative then -value else value), rest)

/-- Reads an exponent, if there is one. -/
def readExponent : List Char → Option (Option Int × List Char)
  | 'e' :: cs | 'E' :: cs =>
    match cs with
    | '+' :: cs => readExponentDigits false cs
    | '-' :: cs => readExponentDigits true cs
    | cs => readExponentDigits false cs
  | cs => some (none, cs)

/-- Reads a number without its sign.  A whole part of several digits does not start with a zero. -/
def readMagnitude (negative : Bool) (cs : List Char) : Option (Number × List Char) := do
  let (digits, cs) := spanDigits cs
  if digits.isEmpty || (1 < digits.length && digits.head? == some 0) then failure
  let (fraction, cs) ← readFraction cs
  let (exponent, cs) ← readExponent cs
  return (⟨negative, digitsValue digits, fraction, exponent⟩, cs)

/-- Reads a number. -/
def readNumber : List Char → Option (Number × List Char)
  | '-' :: cs => readMagnitude true cs
  | cs => readMagnitude false cs

/-! ## Values -/

mutual

/-- Reads a value that starts with the first character. -/
def readValue : Nat → List Char → Option (Json × List Char)
  | 0, _ => none
  | _ + 1, 'n' :: 'u' :: 'l' :: 'l' :: cs => some (null, cs)
  | _ + 1, 't' :: 'r' :: 'u' :: 'e' :: cs => some (bool true, cs)
  | _ + 1, 'f' :: 'a' :: 'l' :: 's' :: 'e' :: cs => some (bool false, cs)
  | _ + 1, '"' :: cs => do
    let (body, cs) ← Text.scan cs
    return (string ⟨body⟩, cs)
  | fuel + 1, '[' :: cs =>
    match skipBlanks cs with
    | ']' :: cs => some (array [], cs)
    | cs => do
      let (items, cs) ← readItems fuel cs
      return (array items, cs)
  | fuel + 1, '{' :: cs =>
    match skipBlanks cs with
    | '}' :: cs => some (object [], cs)
    | cs => do
      let (members, cs) ← readMembers fuel cs
      return (object members, cs)
  | _ + 1, cs => do
    let (literal, cs) ← readNumber cs
    return (number literal, cs)

/-- Reads the items of an array up to its closing bracket. -/
def readItems : Nat → List Char → Option (List Json × List Char)
  | 0, _ => none
  | fuel + 1, cs => do
    let (item, cs) ← readValue fuel cs
    match skipBlanks cs with
    | ']' :: cs => return ([item], cs)
    | ',' :: cs =>
      let (items, cs) ← readItems fuel (skipBlanks cs)
      return (item :: items, cs)
    | _ => none

/-- Reads the members of an object up to its closing brace. -/
def readMembers : Nat → List Char → Option (List (Text × Json) × List Char)
  | 0, _ => none
  | fuel + 1, '"' :: cs => do
    let (key, cs) ← Text.scan cs
    match skipBlanks cs with
    | ':' :: cs =>
      let (value, cs) ← readValue fuel (skipBlanks cs)
      match skipBlanks cs with
      | '}' :: cs => return ([(⟨key⟩, value)], cs)
      | ',' :: cs =>
        let (members, cs) ← readMembers fuel (skipBlanks cs)
        return ((⟨key⟩, value) :: members, cs)
      | _ => none
    | _ => none
  | _ + 1, _ => none

end

/-- Reads a document from its characters. -/
def readChars? (cs : List Char) : Option Json := do
  let (value, rest) ← readValue (cs.length + 1) (skipBlanks cs)
  if (skipBlanks rest).isEmpty then some value else none

/-- **Reads a document.** -/
def read? (text : String) : Option Json := readChars? text.toList

end BlockCoding.Json
