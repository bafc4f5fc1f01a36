/-!
# Single/Decimal — the single-precision number a decimal stands for

A decimal is read in four steps.  `Decimal.ofDigits` keeps the leading digits whose number has 64
bits and counts the digits of the whole part beyond them as zeros.  The number that is kept goes to
the nearest double-precision number, that one is multiplied or divided by a power of ten
(`Decimal.toDouble?`), and the result goes to the nearest single-precision number
(`Decimal.toSingle?`).  Every step rounds, to the even neighbour in a tie, so a decimal of many
digits or with a large exponent can end one unit beside the nearest number.
-/

namespace BlockCoding

/-- The number `mantissa · 10 ^ exponent`, or its negative. -/
structure Decimal where
  negative : Bool
  mantissa : Nat
  exponent : Int
  deriving DecidableEq, Repr

namespace Single

/-- The single-precision number nearest to `mantissa · 2 ^ exponent`: a negative power of two is a
power of five with the point moved. -/
def ofDyadic (mantissa : Nat) (exponent : Int) : Float32 :=
  if 0 ≤ exponent then Float32.ofScientific (mantissa <<< exponent.toNat) false 0
  else
    Float32.ofScientific (mantissa * Nat.pow 5 (-exponent).toNat) true (-exponent).toNat

/-- Where the exponent of a double-precision number starts: the fraction has 52 bits. -/
def doubleUnit : Nat := 0x10000000000000

/-- The single-precision number nearest to a double-precision number. -/
def ofDouble (x : Float) : Float32 :=
  let bits := x.toBits.toNat
  let fraction := bits % doubleUnit
  let exponent : Nat := bits / doubleUnit % 0x800
  let magnitude :=
    if exponent = 2047 then
      if fraction = 0 then Float32.ofBits 0x7f800000 else Float32.ofBits 0x7fc00000
    else if exponent = 0 then ofDyadic fraction (-1074)
    else ofDyadic (doubleUnit + fraction) (exponent - 1075)
  if 0x8000000000000000 ≤ bits then -magnitude else magnitude

end Single

namespace Decimal

/-! ## Digits -/

/-- Appends digits to a number as long as it stays below `2 ^ 64`.  Returns the number and the
digits that are left. -/
def appendDigits (n : Nat) : List Nat → Nat × List Nat
  | [] => (n, [])
  | d :: digits =>
    if 10 * n + d < UInt64.size then appendDigits (10 * n + d) digits else (n, d :: digits)

/-- The decimal with the given digits before and after the point.  Digits that are left of the whole
part still count as places, digits that are left of the fraction do not count. -/
def ofDigits (negative : Bool) (whole fraction : List Nat) (exponent : Int) : Decimal :=
  let (kept, places) := appendDigits 0 whole
  let (mantissa, ignored) := appendDigits kept fraction
  { negative, mantissa
    exponent := exponent + places.length - (fraction.length - ignored.length : Nat) }

/-! ## Powers of ten -/

/-- The greatest `n` for which `10 ^ n` is finite in double precision. -/
def greatestPower : Nat := 308

/-- The double-precision number nearest to `10 ^ n`. -/
def powerOfTen (n : Nat) : Float := Float.ofScientific 1 false n

/-- The magnitude in double precision, unless it is infinite: one product with a power of ten, or
one quotient, or two quotients where one power of ten would be infinite.  From `10 ^ (-616)` on a
word of 64 bits vanishes in any case. -/
def magnitude? (d : Decimal) : Option Float :=
  let x := Float.ofNat d.mantissa
  let places := d.exponent.natAbs
  if d.mantissa = 0 then some x
  else if d.exponent < 0 then
    if places ≤ greatestPower then some (x / powerOfTen places)
    else
      let beyond := min (places - greatestPower) greatestPower
      some (x / powerOfTen greatestPower / powerOfTen beyond)
  else if places ≤ greatestPower then
    let product := x * powerOfTen places
    if product.isInf then none else some product
  else none

/-! ## Rounding -/

/-- The double-precision number a decimal is read as, unless it is infinite. -/
def toDouble? (d : Decimal) : Option Float :=
  d.magnitude?.map fun x => if d.negative then -x else x

/-- The single-precision number a decimal is read as, unless it is beyond double precision. -/
def toSingle? (d : Decimal) : Option Float32 := d.toDouble?.map Single.ofDouble

end Decimal

end BlockCoding
