/-
Choreography/Decimal/Shortest.lean

The fewest decimal digits that single out a binary floating-point number.

A finite positive double is `m · 2 ^ q` with `m < 2 ^ 53`.  The reals that round
to it form an interval around it, whose ends belong to it exactly when `m` is
even.  For one digit, two digits, and so on up to seventeen, the two multiples of
the power of ten next to the number are tried; the first grid with a multiple in
the interval wins, and of two hits the nearer one (the even one, if they are
equally near).

Everything is computed on natural numbers, without rounding.
-/

namespace Choreography

/-- A finite positive number with a binary exponent, and whether the next smaller
number of its format is only half as far away as the next larger one. -/
structure Dyadic where
  mantissa : Nat
  exponent : Int
  narrowBelow : Bool

namespace Dyadic

/-- The leading bit of a mantissa, which is not stored. -/
def hiddenBit : Nat := 0x10000000000000

/-- The magnitude of the finite double with these bits (the sign bit is ignored). -/
def ofBits (bits : UInt64) : Dyadic :=
  let n := bits.toNat
  let fraction : Nat := n % hiddenBit
  let biased : Nat := n / hiddenBit % 0x800
  if biased = 0 then ⟨fraction, -1074, false⟩
  else ⟨hiddenBit + fraction, (biased : Int) - 1075, fraction = 0 && biased != 1⟩

/-- The number of quarters of a unit in the last place that the value has, and the
ends of the interval that rounds to it. -/
def quarters (x : Dyadic) : Nat × Nat × Nat :=
  let v := 4 * x.mantissa
  (v, if x.narrowBelow then v - 1 else v - 2, v + 2)

/-- `(numerator, denominator)` factors that turn quarters of a unit in the last
place into multiples of `10 ^ k`. -/
def scale (x : Dyadic) (k : Int) : Nat × Nat :=
  let two := x.exponent - 2
  (Nat.pow 2 two.toNat * Nat.pow 10 (-k).toNat, Nat.pow 2 (-two).toNat * Nat.pow 10 k.toNat)

/-- The multiple of `10 ^ k` that lies nearest to the value among those that round
to it, if there is one. -/
def onGrid? (x : Dyadic) (k : Int) : Option Nat :=
  let (v, low, high) := x.quarters
  let (num, den) := x.scale k
  let below := v * num / den
  let within (d : Nat) : Bool :=
    if x.mantissa % 2 = 0 then low * num ≤ d * den && d * den ≤ high * num
    else low * num < d * den && d * den < high * num
  let above := below + 1
  match within below, within above with
  | false, false => none
  | true, false => some below
  | false, true => some above
  | true, true =>
    let toBelow := v * num - below * den
    let toAbove := above * den - v * num
    if toBelow < toAbove then some below
    else if toAbove < toBelow then some above
    else if below % 2 = 0 then some below else some above

/-- The power of ten of the leading digit: `10 ^ p ≤ x < 10 ^ (p + 1)`, for a
positive `x`. -/
def magnitude (x : Dyadic) : Int :=
  let guess : Int := ((Nat.log2 x.mantissa : Int) + x.exponent) * 30103 / 100000
  let reaches (p : Int) : Bool :=
    let (num, den) := x.scale p
    den ≤ 4 * x.mantissa * num
  if reaches (guess + 1) then guess + 1
  else if reaches guess then guess
  else guess - 1

/-- Tries grids of growing fineness; the last one holds every double. -/
def search (x : Dyadic) (top : Int) : Nat → Nat × Int
  | 0 => (0, 0)
  | left + 1 =>
    let k := top - (16 - left : Int)
    match x.onGrid? k with
    | some d => (d, k)
    | none => search x top left

/-- Removes trailing zeros from a coefficient. -/
def strip : Nat → Nat × Int → Nat × Int
  | 0, p => p
  | fuel + 1, (d, k) =>
    if d ≠ 0 ∧ d % 10 = 0 then strip fuel (d / 10, k + 1) else (d, k)

/-- Coefficient and power of ten of the shortest decimal that rounds to `x`. -/
def shortest (x : Dyadic) : Nat × Int :=
  if x.mantissa = 0 then (0, 0) else strip 20 (x.search x.magnitude 17)

end Dyadic

end Choreography
