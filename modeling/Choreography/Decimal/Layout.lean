/-
Choreography/Decimal/Layout.lean

How a decimal is laid out as text.  Two layouts are in use.

* `plain` never uses an exponent and writes no fraction that is zero: `100`,
  `0.5`, `-0`, `0.0000001`.  Numbers take it when they are put into a text.
* `scientific` always shows a fraction or an exponent: `100.0`, `0.00001`,
  `1e-6`, `1.5e+16`.  Numbers take it in a JSON document.

Both work on the coefficient's digits and the power of ten of the last of them.
-/
import Choreography.Decimal

namespace Choreography

namespace Decimal

/-- The digits to the left of the point and those to its right, if the last digit
has the weight `10 ^ e`. -/
def positional (digits : List Char) (e : Int) : List Char × List Char :=
  let places := (-e).toNat
  let digits := digits ++ List.replicate e.toNat '0'
  let digits := List.replicate (places + 1 - digits.length) '0' ++ digits
  (digits.take (digits.length - places), digits.drop (digits.length - places))

/-- Puts a sign in front. -/
def signed (negative : Bool) (text : List Char) : List Char :=
  if negative then '-' :: text else text

/-- Positional, without an exponent and without an empty fraction. -/
def plain (d : Decimal) : List Char :=
  let (whole, fraction) := positional (numeralText d.coefficient) d.exponent
  signed d.negative (if fraction.isEmpty then whole else whole ++ '.' :: fraction)

/-- An exponent with its sign; `+` is written. -/
def exponentText (e : Int) : List Char :=
  if e < 0 then '-' :: numeralText e.natAbs else '+' :: numeralText e.natAbs

/-- Positional while the leading digit stands for a power of ten from `10 ^ -5` to
`10 ^ 15`; one digit before the point and an exponent otherwise. -/
def scientific (d : Decimal) : List Char :=
  let digits := numeralText d.coefficient
  let leading := (digits.length : Int) - 1 + d.exponent
  signed d.negative <|
    if -5 ≤ leading ∧ leading ≤ 15 then
      let (whole, fraction) := positional digits d.exponent
      whole ++ '.' :: (if fraction.isEmpty then ['0'] else fraction)
    else
      let tail := digits.drop 1
      digits.take 1 ++ (if tail.isEmpty then [] else '.' :: tail) ++ 'e' :: exponentText leading

end Decimal

end Choreography
