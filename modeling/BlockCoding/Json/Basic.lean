import BlockCoding.Json.Text

/-!
# Json/Basic — documents as trees

A `Json` is the syntax tree of a document.  Literals stay as they are written: which number or which
string a literal stands for is asked only where it is needed, so a part of a document that nobody
asks for has to be well formed and nothing more.
-/

namespace BlockCoding

/-- A number as it is written: sign, whole part, the digits of the fraction, exponent. -/
structure Json.Number where
  negative : Bool
  whole : Nat
  /-- The digits after the point; none if there is no point. -/
  fraction : List Nat
  exponent : Option Int
  deriving DecidableEq, Repr

/-- A document. -/
inductive Json where
  | null
  | bool (value : Bool)
  | number (literal : Json.Number)
  | string (literal : Json.Text)
  | array (items : List Json)
  | object (members : List (Json.Text × Json))
  deriving Repr

namespace Json

/-- The number that a list of decimal digits stands for. -/
def digitsValue (digits : List Nat) : Nat := digits.foldl (fun n d => 10 * n + d) 0

/-! ## Building documents -/

/-- An integer without fraction and exponent. -/
def ofInt (i : Int) : Json := number ⟨i < 0, i.natAbs, [], none⟩

/-- A natural number, without sign. -/
def ofNat (n : Nat) : Json := number ⟨false, n, [], none⟩

/-- A string, with whatever has to be escaped in it escaped. -/
def ofString (s : String) : Json := string (.encode s)

/-- The array of what is written for each item, in order. -/
def ofList {α : Type} (write : α → Json) (xs : List α) : Json := array (xs.map write)

/-- What may be missing: null if it is. -/
def ofOption {α : Type} (write : α → Json) : Option α → Json
  | none => null
  | some a => write a

/-- An object with the given members, in order. -/
def record (members : List (String × Json)) : Json :=
  object (members.map fun (name, value) => (.encode name, value))

/-- A case that carries something: an object with the case's name as its only key. -/
def tagged (name : String) (payload : Json) : Json := record [(name, payload)]

/-! ## Asking for values -/

/-- The truth value a document is, if it is one. -/
def bool? : Json → Option Bool
  | bool b => some b
  | _ => none

/-- The string a document stands for; an escape that stands for nothing makes it none. -/
def string? : Json → Option String
  | string t => t.decode?
  | _ => none

/-- The integer a literal stands for; a zero with a sign is no integer. -/
def int? : Json → Option Int
  | number ⟨negative, whole, [], none⟩ =>
    if negative then if whole = 0 then none else some (-whole) else some whole
  | _ => none

/-- A natural number below `bound`. -/
def natBelow? (bound : Nat) (j : Json) : Option Nat := do
  let i ← j.int?
  if 0 ≤ i ∧ i < bound then some i.toNat else none

/-- An integer that fits into 8 bits, none of them a sign. -/
def uint8? (j : Json) : Option UInt8 := (j.natBelow? UInt8.size).map UInt8.ofNat

/-- An integer that fits into 32 bits, none of them a sign. -/
def uint32? (j : Json) : Option UInt32 := (j.natBelow? UInt32.size).map UInt32.ofNat

/-- An integer that fits into 64 bits, none of them a sign. -/
def uint64? (j : Json) : Option UInt64 := (j.natBelow? UInt64.size).map UInt64.ofNat

/-- An integer that fits into 32 bits, one of them a sign. -/
def int32? (j : Json) : Option Int32 := do
  let i ← j.int?
  if Int32.minValue.toInt ≤ i ∧ i ≤ Int32.maxValue.toInt then some (Int32.ofInt i) else none

/-- The items of an array; all of them have to read. -/
def list? {α : Type} (read : Json → Option α) : Json → Option (List α)
  | array items => items.mapM read
  | _ => none

/-! ## Records -/

/-- What a document has for a field of a record. -/
inductive Slot where
  | given (value : Json)
  /-- An object without the key. -/
  | omitted
  /-- An array that ends before the field. -/
  | cut
  deriving Repr

namespace Slot

/-- A field that has to be there. -/
def required {α : Type} (read : Json → Option α) : Slot → Option α
  | given j => read j
  | _ => none

/-- A field that an object may leave out or set to null. -/
def optional {α : Type} (read : Json → Option α) : Slot → Option (Option α)
  | given null => some none
  | given j => (read j).map some
  | omitted => some none
  | cut => none

/-- A field that has a default. -/
def defaulted {α : Type} (default : α) (read : Json → Option α) : Slot → Option α
  | given j => read j
  | _ => some default

end Slot

/-- The value of the only member with a given key; a key may not be there twice. -/
def memberSlot? (members : List (String × Json)) (name : String) : Option Slot :=
  match members.filter fun member => member.1 == name with
  | [] => some .omitted
  | [(_, value)] => some (.given value)
  | _ => none

/-- The fields of a record: an object with any further keys, or an array of the fields in order. -/
def slots? (names : List String) : Json → Option (List Slot)
  | array items =>
    if items.length ≤ names.length then
      some ((items.map Slot.given) ++ List.replicate (names.length - items.length) Slot.cut)
    else none
  | object members => do
    let members ← members.mapM fun (key, value) => do return (← key.decode?, value)
    names.mapM (memberSlot? members)
  | _ => none

/-! ## Cases -/

/-- The case of a sum that a document names: a string for a case that carries nothing, or an object
with one key. -/
def case? : Json → Option (String × Option Json)
  | string name => do return (← name.decode?, none)
  | object [(name, payload)] => do return (← name.decode?, some payload)
  | _ => none

/-- Whether a case carries nothing: no payload, or null. -/
def isBare : Option Json → Bool
  | none | some null => true
  | _ => false

/-- A case that carries nothing, one of `cases`, by its name. -/
def bareCase? {α : Type} (cases : List α) (nameOf : α → String) (j : Json) : Option α := do
  let (name, payload) ← j.case?
  if isBare payload then cases.find? fun a => nameOf a == name else none

end Json

end BlockCoding
