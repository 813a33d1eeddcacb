/-
Choreography/Decimal.lean

Numerals: a sign, the digits before and after one optional point, and the power
of ten by which they are scaled.  A numeral is exact; which number a clock takes
it for is decided by the arithmetic of that clock (`Quantity.ofDecimal`).

The reader `Decimal.ofChars?` accepts an optional `-`, then ASCII digits with at
most one point and at least one digit: `5`, `5.`, `.5`, `-0.25`.
-/

namespace Choreography

/-- The number `± coefficient × 10 ^ exponent`, as it was written. -/
structure Decimal where
  negative : Bool
  coefficient : Nat
  exponent : Int
  deriving DecidableEq, Repr

namespace Decimal

/-- The digit a character stands for. -/
def digit? (c : Char) : Option Nat :=
  if '0' ≤ c ∧ c ≤ '9' then some (c.toNat - '0'.toNat) else none

/-- A decimal digit of ASCII. -/
def isDigit (c : Char) : Bool := (digit? c).isSome

/-- Continues the coefficient `acc` with the digits of `cs`; any other character
spoils the numeral. -/
def digits? (acc : Nat) : List Char → Option Nat
  | [] => some acc
  | c :: cs =>
    match digit? c with
    | some d => digits? (acc * 10 + d) cs
    | none => none

/-- Digits with at most one point, of which at least one is a digit. -/
def unsigned? (cs : List Char) : Option (Nat × Int) :=
  let whole := cs.takeWhile (· != '.')
  let fraction := (cs.dropWhile (· != '.')).drop 1
  if whole.isEmpty && fraction.isEmpty then none
  else (digits? 0 (whole ++ fraction)).map fun n => (n, -(fraction.length : Int))

/-- Reads a whole text as a numeral. -/
def ofChars? : List Char → Option Decimal
  | '-' :: cs => (unsigned? cs).map fun (n, e) => ⟨true, n, e⟩
  | cs => (unsigned? cs).map fun (n, e) => ⟨false, n, e⟩

/-- The digits of `n` to base ten, without leading zeros. -/
def numeralText (n : Nat) : List Char := Nat.toDigits 10 n

end Decimal

end Choreography
