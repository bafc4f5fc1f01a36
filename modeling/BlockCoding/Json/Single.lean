import BlockCoding.Json.Basic
import BlockCoding.Single.Decimal
import BlockCoding.Single.Shortest

/-!
# Json/Single — single-precision numbers in documents

A number is written with the fewest digits that read back: positionally if its first digit stands
between the millionths and the millions of millions, and with an exponent otherwise.  What is not
finite is written as null.
-/

namespace BlockCoding.Json

/-! ## Writing -/

/-- How a decimal is laid out. -/
structure Layout where
  /-- The exponents of the first digit for which no exponent is written, from the least … -/
  least : Int
  /-- … to the greatest. -/
  greatest : Int

/-- The layout of single-precision numbers. -/
def singleLayout : Layout := ⟨-6, 12⟩

/-- The decimal digits of a natural number. -/
def digitsOf (n : Nat) : List Nat := (Nat.toDigits 10 n).map fun c => c.toNat - '0'.toNat

/-- The digits of a natural number without trailing zeros. -/
def trimmedDigits (n : Nat) : List Nat := ((digitsOf n).reverse.dropWhile (· == 0)).reverse

/-- Lays out the decimal whose first digit stands at `10 ^ e`.  Written positionally, a number
always has a fraction. -/
def Layout.number (layout : Layout) (negative : Bool) (digits : List Nat) (e : Int) : Number :=
  if e < layout.least ∨ layout.greatest < e then
    ⟨negative, digitsValue (digits.take 1), digits.drop 1, some e⟩
  else if 0 ≤ e then
    let places := e.toNat + 1
    let whole := digits.take places ++ List.replicate (places - digits.length) 0
    let fraction := digits.drop places
    ⟨negative, digitsValue whole, if fraction.isEmpty then [0] else fraction, none⟩
  else ⟨negative, 0, List.replicate ((-e).toNat - 1) 0 ++ digits, none⟩

/-- The literal of a finite number. -/
def singleNumber (x : Float32) : Number :=
  let (negative, m, q) := Single.dyadic x
  if m = 0 then ⟨negative, 0, [0], none⟩
  else
    let (c, k) := Single.shortest m q
    singleLayout.number negative (trimmedDigits c) (k + (Nat.toDigits 10 c).length - 1)

/-- Writes a single-precision number. -/
def ofSingle (x : Float32) : Json := if x.isFinite then number (singleNumber x) else null

/-! ## Reading -/

/-- The decimal that a literal is read as. -/
def Number.decimal (n : Number) : Decimal :=
  .ofDigits n.negative (digitsOf n.whole) n.fraction (n.exponent.getD 0)

/-- The single-precision number that a literal is read as.  An integer of 64 bits is rounded once;
any other literal is read as a decimal, by way of double precision, and refused if it is beyond
that. -/
def Number.single? (n : Number) : Option Float32 :=
  match (number n).int? with
  | some i =>
    if Int64.minValue.toInt ≤ i ∧ i < UInt64.size then some (Float32.ofInt i)
    else n.decimal.toSingle?
  | none => n.decimal.toSingle?

/-- Reads a single-precision number. -/
def single? : Json → Option Float32
  | number n => n.single?
  | _ => none

end BlockCoding.Json
