/-
Choreography/Quantity.lean

The arithmetic that times, offsets and numeric style values are computed in.

Nothing in the compiler depends on how numbers are represented: every definition
takes the number type `τ` as a parameter and asks for a `Quantity τ`.  Programs
run on IEEE doubles (the instance below); the theory of the compiler is stated
over exact rationals (`Choreography.Quantity.Exact`).

The class holds operations only and no laws, for doubles obey few.  Three of them
are not arithmetic: `isFinite`, the order `sortsBefore` in which keyframes are
sorted (total even where `≤` is not), and the way from and to decimal text.
-/
import Choreography.Decimal.Shortest
import Choreography.Decimal.Layout

namespace Choreography

/-- A number type on which clocks run. -/
class Quantity (τ : Type) extends
    Zero τ, One τ, NatCast τ, Neg τ, Add τ, Sub τ, Mul τ, Div τ, LT τ, LE τ, BEq τ where
  decLt : DecidableLT τ
  decLe : DecidableLE τ
  /-- Neither infinite nor undefined. -/
  isFinite : τ → Bool
  /-- The nearest whole number; a half goes away from zero. -/
  round : τ → τ
  /-- A total order that sorts as `≤` does where numbers are comparable. -/
  sortsBefore : τ → τ → Bool
  /-- The number that a numeral stands for. -/
  ofDecimal : Decimal → τ
  /-- The text that stands for a number inside another text. -/
  text : τ → String

namespace Quantity

variable {τ : Type} [Quantity τ]

instance (priority := low) : DecidableLT τ := decLt

instance (priority := low) : DecidableLE τ := decLe

/-- The larger of two numbers; an undefined one gives way to the other. -/
def later (a b : τ) : τ :=
  if a < b then b else if a == a then a else b

/-- The size of a number without its sign. -/
def magnitude (a : τ) : τ :=
  if a < 0 then 0 - a else a

/-- To three places. -/
def toThousandths (a : τ) : τ :=
  round (a * ((1000 : Nat) : τ)) / ((1000 : Nat) : τ)

end Quantity

/-! ### Doubles -/

namespace Double

/-- The sign bit of a double: its bits are below this number or it is negative. -/
def signBit : Nat := 0x8000000000000000

/-- The key under which a double sorts: negative numbers, then negative zero, zero,
positive numbers, with undefined values at the two ends. -/
def sortKey (x : Float) : Int :=
  let n := x.toBits.toNat
  if n < signBit then n else (signBit : Int) - n - 1

/-- The shortest decimal that rounds to a finite double. -/
def decimal (x : Float) : Decimal :=
  let (coefficient, exponent) := (Dyadic.ofBits x.toBits).shortest
  ⟨signBit ≤ x.toBits.toNat, coefficient, exponent⟩

/-- The double nearest to a numeral. -/
def ofDecimal (d : Decimal) : Float :=
  let size := Float.ofScientific d.coefficient (d.exponent < 0) d.exponent.natAbs
  if d.negative then -size else size

/-- Without exponent and without an empty fraction. -/
def text (x : Float) : String :=
  if x.isNaN then "NaN"
  else if x.isFinite then String.ofList (decimal x).plain
  else if x < 0 then "-inf" else "inf"

end Double

instance : Quantity Float where
  zero := 0.0
  one := 1.0
  natCast := Float.ofNat
  decLt := inferInstance
  decLe := inferInstance
  isFinite := Float.isFinite
  round := Float.round
  sortsBefore a b := Double.sortKey a ≤ Double.sortKey b
  ofDecimal := Double.ofDecimal
  text := Double.text

end Choreography
