/-!
# Single/Bounds — the larger, the smaller and the clamped single-precision number

Of two numbers one of which is not a number, the other is both the larger and the smaller.
Clamping leaves what is not a number as it is.
-/

namespace BlockCoding.Single

/-- Positive infinity. -/
def infinity : Float32 := .ofBits 0x7f800000

/-- The gap between 1 and the next single-precision number, `2^-23`. -/
def epsilon : Float32 := .ofBits 0x34000000

/-- The larger of two numbers. -/
def larger (a b : Float32) : Float32 :=
  if a.isNaN then b else if b.isNaN then a else if a < b then b else a

/-- The smaller of two numbers. -/
def smaller (a b : Float32) : Float32 :=
  if a.isNaN then b else if b.isNaN then a else if b < a then b else a

/-- The number nearest to `v` from `lo` to `hi`. -/
def clamp (lo hi v : Float32) : Float32 :=
  if v < lo then lo else if hi < v then hi else v

end BlockCoding.Single
