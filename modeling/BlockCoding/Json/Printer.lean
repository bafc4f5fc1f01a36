import BlockCoding.Json.Basic

/-!
# Json/Printer — from documents to text

`Json.compact` writes a document without blanks, `Json.pretty` with one item or member on each line
and two blanks for each level.
-/

namespace BlockCoding.Json

/-- The decimal digits of a natural number. -/
def natChars (n : Nat) : List Char := Nat.toDigits 10 n

/-- The characters of a number; an exponent always has its sign. -/
def Number.chars (n : Number) : List Char :=
  (if n.negative then ['-'] else []) ++ natChars n.whole
    ++ (if n.fraction.isEmpty then [] else '.' :: n.fraction.map Nat.digitChar)
    ++ (match n.exponent with
      | none => []
      | some e => 'e' :: (if e < 0 then '-' else '+') :: natChars e.natAbs)

/-- The characters of a string literal, with its quotes. -/
def Text.chars (t : Text) : List Char := '"' :: t.body ++ ['"']

mutual

/-- The characters of a document without blanks. -/
def chars : Json → List Char
  | null => ['n', 'u', 'l', 'l']
  | bool true => ['t', 'r', 'u', 'e']
  | bool false => ['f', 'a', 'l', 's', 'e']
  | number n => n.chars
  | string t => t.chars
  | array items => '[' :: itemsChars items ++ [']']
  | object members => '{' :: membersChars members ++ ['}']

/-- The characters of the items of an array. -/
def itemsChars : List Json → List Char
  | [] => []
  | [item] => chars item
  | item :: items => chars item ++ ',' :: itemsChars items

/-- The characters of the members of an object. -/
def membersChars : List (Text × Json) → List Char
  | [] => []
  | [(key, value)] => key.chars ++ ':' :: chars value
  | (key, value) :: members => key.chars ++ ':' :: chars value ++ ',' :: membersChars members

end

/-- **Writes a document without blanks.** -/
def compact (j : Json) : String := String.ofList j.chars

/-- A new line, indented. -/
def lineBreak (depth : Nat) : List Char := '\n' :: List.replicate (2 * depth) ' '

mutual

/-- The characters of a document at a depth of nesting, each item and member on its own line. -/
def prettyChars (depth : Nat) : Json → List Char
  | array (item :: items) =>
    '[' :: prettyItems (depth + 1) (item :: items) ++ lineBreak depth ++ [']']
  | object (member :: members) =>
    '{' :: prettyMembers (depth + 1) (member :: members) ++ lineBreak depth ++ ['}']
  | j => chars j

/-- The lines of the items of an array. -/
def prettyItems (depth : Nat) : List Json → List Char
  | [] => []
  | [item] => lineBreak depth ++ prettyChars depth item
  | item :: items => lineBreak depth ++ prettyChars depth item ++ ',' :: prettyItems depth items

/-- The lines of the members of an object. -/
def prettyMembers (depth : Nat) : List (Text × Json) → List Char
  | [] => []
  | [(key, value)] => lineBreak depth ++ key.chars ++ ':' :: ' ' :: prettyChars depth value
  | (key, value) :: members =>
    lineBreak depth ++ key.chars ++ ':' :: ' ' :: prettyChars depth value
      ++ ',' :: prettyMembers depth members

end

/-- Writes a document over several lines. -/
def pretty (j : Json) : String := String.ofList (j.prettyChars 0)

end BlockCoding.Json
