/-
Choreography/Json/Number.lean

Numbers in JSON text.

A number is read in two steps.  First its digits are gathered into a whole
significand and a power of ten (`Literal`): the significand takes the leading
digits for as long as it fits into 64 bits, the digits after those only count for
the power of ten (before the point) or not at all (after it).  Then the number
type scales the significand (`JsonNumber.scale?`), which may fail because the
result would be too large.
-/
import Choreography.Quantity
import Choreography.Json

namespace Choreography

/-- Number types with a JSON form. -/
class JsonNumber (ν : Type) where
  /-- The number `significand · 10 ^ exponent`, if it is not too large. -/
  scale? : Nat → Int → Option ν
  /-- The JSON text of a finite number. -/
  write : ν → List Char

namespace Json

/-- A number as it was written: its sign, its significand, its power of ten, and
whether it has neither fraction nor exponent. -/
structure Literal where
  negative : Bool
  significand : Nat
  exponent : Int
  isWhole : Bool
  deriving DecidableEq

namespace Literal

/-- The largest significand. -/
def limit : Nat := 0xFFFFFFFFFFFFFFFF

/-- Extends a significand with digits until one of them does not fit, and counts
those taken. -/
def takeDigits (significand : Nat) : List Char → Nat × Nat
  | [] => (significand, 0)
  | c :: cs =>
    let next := significand * 10 + (c.toNat - '0'.toNat)
    if next ≤ limit then
      let (result, count) := takeDigits next cs
      (result, count + 1)
    else (significand, 0)

/-- An optional sign and at least one digit. -/
def exponent? (cs : List Char) : Option (Int × List Char) :=
  let (negative, cs) : Bool × List Char :=
    match cs with
    | '+' :: cs => (false, cs)
    | '-' :: cs => (true, cs)
    | cs => (false, cs)
  let digits := cs.takeWhile Decimal.isDigit
  match digits, Decimal.digits? 0 digits with
  | _ :: _, some n => some (if negative then -(n : Int) else n, cs.dropWhile Decimal.isDigit)
  | _, _ => none

/-- The exponent of a number, if one follows. -/
def scaled? (negative : Bool) (significand : Nat) (exponent : Int) (isWhole : Bool) :
    List Char → Option (Literal × List Char)
  | c :: cs =>
    if c = 'e' ∨ c = 'E' then
      (exponent? cs).map fun (e, rest) => (⟨negative, significand, exponent + e, false⟩, rest)
    else some (⟨negative, significand, exponent, isWhole⟩, c :: cs)
  | [] => some (⟨negative, significand, exponent, isWhole⟩, [])

/-- A number without its sign, and the text after it.  A leading zero stands alone,
and a point is followed by at least one digit. -/
def unsigned? (negative : Bool) (cs : List Char) : Option (Literal × List Char) :=
  let digits := cs.takeWhile Decimal.isDigit
  let rest := cs.dropWhile Decimal.isDigit
  if digits.isEmpty || (digits.head? = some '0' && digits.length != 1) then none
  else
    let (significand, taken) := takeDigits 0 digits
    let surplus : Int := digits.length - taken
    match rest with
    | '.' :: rest =>
      let fraction := rest.takeWhile Decimal.isDigit
      if fraction.isEmpty then none
      else
        let (significand, taken) := takeDigits significand fraction
        scaled? negative significand (surplus - taken) false (rest.dropWhile Decimal.isDigit)
    | rest => scaled? negative significand surplus (surplus = 0) rest

/-- Reads a number at the beginning of a text. -/
def ofChars? : List Char → Option (Literal × List Char)
  | '-' :: cs => unsigned? true cs
  | cs => unsigned? false cs

/-- The value of a literal: whole if it is written so and fits into 64 bits (zero
with a minus sign does not count as whole). -/
def value {ν : Type} [Neg ν] [JsonNumber ν] (l : Literal) : Json ν :=
  if l.isWhole && !l.negative then .whole l.significand
  else if l.isWhole && l.significand ≠ 0 && l.significand ≤ 0x8000000000000000 then .whole (-l.significand)
  else
    match JsonNumber.scale? (ν := ν) l.significand l.exponent with
    | some x => .real (if l.negative then -x else x)
    | none => .unreadable

end Literal

variable {ν : Type} [Quantity ν]

/-- A number as a JSON value; what is not finite has none but null. -/
def ofNumber (x : ν) : Json ν :=
  if Quantity.isFinite x then real x else null

/-- Reads a number of either kind. -/
def number? : Json ν → Option ν
  | real x => some x
  | whole n => some (if n < 0 then -((n.natAbs : Nat) : ν) else ((n.natAbs : Nat) : ν))
  | _ => none

end Json

/-! ### Doubles -/

namespace Double

/-- Multiplies by a power of ten, rounding the significand, the power and the result
once each.  Powers beyond `10 ^ 308` are divided out in steps. -/
def scale? : Nat → Float → Int → Option Float
  | 0, x, _ => some x
  | fuel + 1, x, e =>
    if e.natAbs ≤ 308 then
      let power := Float.ofScientific 1 false e.natAbs
      if e < 0 then some (x / power)
      else if (x * power).isFinite then some (x * power) else none
    else if x == 0 then some x
    else if 0 < e then none
    else scale? fuel (x / Float.ofScientific 1 false 308) (e + 308)

end Double

instance : JsonNumber Float where
  scale? significand exponent := Double.scale? 4 (Float.ofNat significand) exponent
  write x := (Double.decimal x).scientific

end Choreography
