/-
Choreography/Timing/Expression.lean

Reading times and timing expressions.

A time is a numeral with a unit, `ms` or `s` in either case.  A timing expression
is a time, a second time for the delay, and an easing, the last two of which may be
missing; the parts are separated by white space.  An easing is a name of ASCII
letters and dashes, alone or with arguments between parentheses.

There are two readers.  `Scalar.milliseconds` is lenient: it looks for a time at
the beginning of a text and takes anything else for zero.  `Timings.read` wants the
whole text to be a timing expression and reports one that is not; where negative
times make no sense it reports them too, but still returns what it has read.
-/
import Choreography.Style
import Choreography.Diagnostic
import Choreography.Timing
import Choreography.Text.Blank

namespace Choreography

/-- Units of time. -/
inductive TimeUnit where
  | milliseconds
  | seconds
  deriving DecidableEq, Repr

variable {τ : Type} [Quantity τ]

/-- A number of units in milliseconds. -/
def TimeUnit.toMilliseconds (x : τ) : TimeUnit → τ
  | milliseconds => x
  | seconds => x * ((1000 : Nat) : τ)

namespace TimeText

/-- A character that a numeral consists of, apart from its sign. -/
def isNumeralChar (c : Char) : Bool := Decimal.isDigit c || c = '.'

/-- The unit at the beginning of a text, and what follows it. -/
def unit? : List Char → Option (TimeUnit × List Char)
  | 'm' :: c :: rest => if c = 's' ∨ c = 'S' then some (.milliseconds, rest) else none
  | 'M' :: c :: rest => if c = 's' ∨ c = 'S' then some (.milliseconds, rest) else none
  | 's' :: rest => some (.seconds, rest)
  | 'S' :: rest => some (.seconds, rest)
  | _ => none

/-- The numeral (not yet read) and the unit at the beginning of a text, and what
follows them. -/
def scan? (cs : List Char) : Option (List Char × TimeUnit × List Char) :=
  let (sign, body) : List Char × List Char :=
    match cs with
    | '-' :: rest => (['-'], rest)
    | rest => ([], rest)
  let digits := body.takeWhile isNumeralChar
  if digits.isEmpty then none
  else
    (unit? (body.dropWhile isNumeralChar)).map fun (unit, rest) => (sign ++ digits, unit, rest)

/-- The value of a numeral in a unit. -/
def value? (numeral : List Char) (unit : TimeUnit) : Option τ :=
  (Decimal.ofChars? numeral).map fun d => unit.toMilliseconds (Quantity.ofDecimal d)

/-- Reads a whole text as a time. -/
def time? (cs : List Char) : Option τ :=
  match scan? cs with
  | some (numeral, unit, []) => value? numeral unit
  | _ => none

/-- A character of the name of an easing. -/
def isEasingChar (c : Char) : Bool :=
  ('a' ≤ c && c ≤ 'z') || ('A' ≤ c && c ≤ 'Z') || c = '-'

/-- Whether a text is an easing: a name, alone or followed by parentheses with
something in between. -/
def isEasing (cs : List Char) : Bool :=
  let arguments := cs.dropWhile isEasingChar
  !(cs.takeWhile isEasingChar).isEmpty &&
    (arguments.isEmpty ||
      (2 < arguments.length && arguments.head? = some '(' && arguments.getLast? = some ')'))

/-- Reads an easing, if anything is left. -/
def easing? (cs : List Char) : Option (Option String) :=
  if cs.isEmpty then some none
  else if isEasing cs then some (some (String.ofList cs))
  else none

/-- Reads a timing expression without white space around it. -/
def timings? (cs : List Char) : Option (Timings τ) := do
  let (first, rest) := Text.cutAtBlank cs
  let duration ← time? first
  let (second, tail) := Text.cutAtBlank rest
  match time? second with
  | some delay => (easing? tail).map fun easing => ⟨duration, delay, easing⟩
  | none => (easing? rest).map fun easing => ⟨duration, 0, easing⟩

end TimeText

/-- A number of milliseconds as it is; of a text, the time at its beginning. -/
def Scalar.milliseconds : Scalar τ → τ
  | .number x => x
  | .text s =>
    match TimeText.scan? (Text.trimStart s.toList) with
    | some (numeral, unit, _) => (TimeText.value? numeral unit).getD 0
    | none => 0

/-- What is to be reported about the times of an expression that must not be
negative: the expression, then each part that is. -/
def Timings.negativeParts (expression : String) (t : Timings τ) : List Diagnostic :=
  let parts := (if t.duration < 0 then [Diagnostic.negativeDuration] else []) ++
    (if t.delay < 0 then [Diagnostic.negativeDelay] else [])
  if parts.isEmpty then [] else .invalidTiming expression :: parts

/-- Reads a timing expression. -/
def Timings.read (expression : String) (allowNegative : Bool) : Timings τ × List Diagnostic :=
  match TimeText.timings? (Text.trim expression.toList) with
  | none => (Timings.zero, [.invalidTiming expression])
  | some t => (t, if allowNegative then [] else t.negativeParts expression)

end Choreography
