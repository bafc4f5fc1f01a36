/-!
# Single/Shortest — the fewest digits that read back

`Single.shortest` finds, for a positive number `m · 2 ^ q` of single precision, a decimal with the
fewest digits among those that round to it.  All reals of an interval around the number do.  On the
grid of the multiples of a power of ten only the two neighbours of the number need a look; of two
in the interval the nearer is taken, and in a tie the one with an even last digit.
-/

namespace BlockCoding.Single

/-- Where the exponent of a single-precision number starts: the fraction has 23 bits. -/
def unit : Nat := 0x800000

/-- A positive number and the interval of the reals that round to it, all over one denominator.
The ends belong to the interval if `closed`. -/
structure Neighbourhood where
  value : Nat
  lower : Nat
  upper : Nat
  denominator : Nat
  closed : Bool
  deriving Repr

/-- The neighbourhood of `m · 2 ^ q`.  Each end is half way to the next number; below a power of two
the numbers are twice as dense. -/
def Neighbourhood.ofDyadic (m : Nat) (q : Int) : Neighbourhood :=
  let denseBelow := m = unit ∧ -149 < q
  let scale := Nat.pow 2 (q - 2).toNat
  { value := 4 * m * scale
    lower := (4 * m - if denseBelow then 1 else 2) * scale
    upper := (4 * m + 2) * scale
    denominator := Nat.pow 2 (2 - q).toNat
    closed := m % 2 = 0 }

namespace Neighbourhood

/-- The factors by which the number and the multiples of `10 ^ k` become integers. -/
def gridScale (k : Int) : Nat × Nat := (Nat.pow 10 (-k).toNat, Nat.pow 10 k.toNat)

/-- Whether `c · 10 ^ k` is in the interval. -/
def holds (n : Neighbourhood) (k : Int) (c : Nat) : Bool :=
  let (up, down) := gridScale k
  let point := c * down * n.denominator
  if n.closed then n.lower * up ≤ point && point ≤ n.upper * up
  else n.lower * up < point && point < n.upper * up

/-- The multiple of `10 ^ k` in the interval that is nearest to the number, if there is one. -/
def nearest? (n : Neighbourhood) (k : Int) : Option Nat :=
  let (up, down) := gridScale k
  let below := n.value * up / (down * n.denominator)
  match n.holds k below, n.holds k (below + 1) with
  | false, false => none
  | true, false => some below
  | false, true => some (below + 1)
  | true, true =>
    let toBelow := n.value * up - below * down * n.denominator
    let toAbove := (below + 1) * down * n.denominator - n.value * up
    if toBelow < toAbove then some below
    else if toAbove < toBelow then some (below + 1)
    else if below % 2 = 0 then some below else some (below + 1)

/-- Whether the number is at least `10 ^ k`. -/
def reaches (n : Neighbourhood) (k : Int) : Bool :=
  let (up, down) := gridScale k
  down * n.denominator ≤ n.value * up

/-- The exponent of the first digit, searched downwards from `start`. -/
def leadingExponent (n : Neighbourhood) : Nat → Int → Int
  | 0, start => start
  | fuel + 1, start =>
    if n.reaches start then start else n.leadingExponent fuel (start - 1)

/-- The first grid, from coarse to fine, with a point in the interval. -/
def search (n : Neighbourhood) : Nat → Int → Nat × Int
  | 0, k => (n.value * (gridScale k).1 / ((gridScale k).2 * n.denominator), k)
  | fuel + 1, k =>
    match n.nearest? k with
    | some c => (c, k)
    | none => n.search fuel (k - 1)

end Neighbourhood

/-- The shortest decimal that rounds to `m · 2 ^ q`, as digits and a power of ten.  Single precision
needs at most nine digits, and its numbers lie between `10 ^ -46` and `10 ^ 39`. -/
def shortest (m : Nat) (q : Int) : Nat × Int :=
  let n := Neighbourhood.ofDyadic m q
  n.search 9 (n.leadingExponent 84 38)

/-! ## Taking a number apart -/

/-- The sign and the magnitude `m · 2 ^ q` of a finite number. -/
def dyadic (x : Float32) : Bool × Nat × Int :=
  let bits := x.toBits.toNat
  let fraction := bits % unit
  let exponent : Nat := bits / unit % 0x100
  (0x80000000 ≤ bits,
    if exponent = 0 then (fraction, -149) else (unit + fraction, (exponent : Int) - 150))

end BlockCoding.Single
