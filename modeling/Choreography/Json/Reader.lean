/-
Choreography/Json/Reader.lean

Reading JSON text.

The grammar is that of RFC 8259 without extensions: four blank characters, no
comments, no trailing commas, nothing after the value.  Text that breaks the
grammar has no value at all (`Json.ofChars? … = none`); what follows the grammar
but has no representation becomes `unreadable` in its place.

The recursion is on a bound for the number of steps, which `ofChars?` takes from
the length of the text.
-/
import Choreography.Json.Number

namespace Choreography

namespace Json

variable {ν : Type} [Neg ν] [JsonNumber ν]

/-- Drops the white space of JSON. -/
def skipBlank (cs : List Char) : List Char :=
  cs.dropWhile fun c => c = ' ' || c = '\n' || c = '\t' || c = '\r'

/-! ### Strings -/

/-- The value of a hexadecimal digit. -/
def hexDigit? (c : Char) : Option Nat :=
  if '0' ≤ c ∧ c ≤ '9' then some (c.toNat - '0'.toNat)
  else if 'a' ≤ c ∧ c ≤ 'f' then some (c.toNat - 'a'.toNat + 10)
  else if 'A' ≤ c ∧ c ≤ 'F' then some (c.toNat - 'A'.toNat + 10)
  else none

/-- Four hexadecimal digits. -/
def hexUnit? (a b c d : Char) : Option Nat := do
  let a ← hexDigit? a
  let b ← hexDigit? b
  let c ← hexDigit? c
  let d ← hexDigit? d
  return ((a * 16 + b) * 16 + c) * 16 + d

/-- The character that an escape letter stands for. -/
def escape? : Char → Option Char
  | '"' => some '"'
  | '\\' => some '\\'
  | '/' => some '/'
  | 'b' => some '\x08'
  | 'f' => some '\x0c'
  | 'n' => some '\n'
  | 'r' => some '\r'
  | 't' => some '\t'
  | _ => none

/-- The state while a string is read: the characters so far in reverse, the first
half of a surrogate pair that waits for its second, and whether a lone half has
been met. -/
structure Partial where
  chars : List Char
  high : Option Nat
  broken : Bool

namespace Partial

/-- A plain character. -/
def push (p : Partial) (c : Char) : Partial :=
  ⟨c :: p.chars, none, p.broken || p.high.isSome⟩

/-- A unit of UTF-16, written as an escape. -/
def pushUnit (p : Partial) (unit : Nat) : Partial :=
  if 0xD800 ≤ unit ∧ unit ≤ 0xDBFF then ⟨p.chars, some unit, p.broken || p.high.isSome⟩
  else if 0xDC00 ≤ unit ∧ unit ≤ 0xDFFF then
    match p.high with
    | some high =>
      ⟨Char.ofNat (0x10000 + (high - 0xD800) * 0x400 + (unit - 0xDC00)) :: p.chars, none, p.broken⟩
    | none => { p with broken := true }
  else p.push (Char.ofNat unit)

/-- The text of a finished string, unless it holds half of a surrogate pair. -/
def text? (p : Partial) : Option String :=
  if p.broken || p.high.isSome then none else some (String.ofList p.chars.reverse)

end Partial

/-- Reads the rest of a string up to its closing quotation mark. -/
def stringFrom? (p : Partial) : List Char → Option (Partial × List Char)
  | '"' :: rest => some (p, rest)
  | '\\' :: 'u' :: a :: b :: c :: d :: rest =>
    match hexUnit? a b c d with
    | some unit => stringFrom? (p.pushUnit unit) rest
    | none => none
  | '\\' :: c :: rest =>
    match escape? c with
    | some c => stringFrom? (p.push c) rest
    | none => none
  | c :: rest => if c = '\\' ∨ c.toNat < 0x20 then none else stringFrom? (p.push c) rest
  | [] => none

/-- Reads a string after its opening quotation mark. -/
def string? (cs : List Char) : Option (Option String × List Char) :=
  (stringFrom? ⟨[], none, false⟩ cs).map fun (p, rest) => (p.text?, rest)

/-! ### Values -/

/-- How many arrays and objects may be open at once. -/
def nestingLimit : Nat := 127

/-- The text after a word, if the text begins with it. -/
def after? (word : String) (cs : List Char) : Option (List Char) :=
  if word.toList.isPrefixOf cs then some (cs.drop word.length) else none

/-- Hides a container that is nested too deeply. -/
def limited (level : Nat) (j : Json ν) : Json ν :=
  if level < nestingLimit then j else unreadable

/-- The object of members, unless one of their keys is broken. -/
def ofMembers (members : List (Option String × Json ν)) : Json ν :=
  match members.mapM fun (key, value) => key.map fun key => (key, value) with
  | some members => object members
  | none => unreadable

mutual

/-- Reads a value inside `level` containers. -/
def value? : Nat → Nat → List Char → Option (Json ν × List Char)
  | 0, _, _ => none
  | fuel + 1, level, cs =>
    match skipBlank cs with
    | '"' :: rest =>
      (string? rest).map fun (s, rest) => (s.elim unreadable text, rest)
    | '[' :: rest =>
      match skipBlank rest with
      | ']' :: rest => some (limited level (array []), rest)
      | rest =>
        (items? fuel (level + 1) rest).map fun (items, rest) => (limited level (array items), rest)
    | '{' :: rest =>
      match skipBlank rest with
      | '}' :: rest => some (limited level (object []), rest)
      | rest =>
        (members? fuel (level + 1) rest).map fun (members, rest) =>
          (limited level (ofMembers members), rest)
    | 'n' :: rest => (after? "ull" rest).map fun rest => (null, rest)
    | 't' :: rest => (after? "rue" rest).map fun rest => (bool true, rest)
    | 'f' :: rest => (after? "alse" rest).map fun rest => (bool false, rest)
    | rest => (Literal.ofChars? rest).map fun (l, rest) => (l.value, rest)

/-- Reads the items of an array up to its closing bracket. -/
def items? : Nat → Nat → List Char → Option (List (Json ν) × List Char)
  | 0, _, _ => none
  | fuel + 1, level, cs =>
    match value? fuel level cs with
    | none => none
    | some (item, rest) =>
      match skipBlank rest with
      | ']' :: rest => some ([item], rest)
      | ',' :: rest => (items? fuel level rest).map fun (items, rest) => (item :: items, rest)
      | _ => none

/-- Reads the members of an object up to its closing brace. -/
def members? : Nat → Nat → List Char → Option (List (Option String × Json ν) × List Char)
  | 0, _, _ => none
  | fuel + 1, level, cs =>
    match skipBlank cs with
    | '"' :: rest =>
      match string? rest with
      | none => none
      | some (key, rest) =>
        match skipBlank rest with
        | ':' :: rest =>
          match value? fuel level rest with
          | none => none
          | some (value, rest) =>
            match skipBlank rest with
            | '}' :: rest => some ([(key, value)], rest)
            | ',' :: rest =>
              (members? fuel level rest).map fun (members, rest) =>
                ((key, value) :: members, rest)
            | _ => none
        | _ => none
    | _ => none

end

/-- The value of a whole text. -/
def ofChars? (cs : List Char) : Option (Json ν) :=
  match value? (2 * cs.length + 2) 0 cs with
  | some (value, rest) => if (skipBlank rest).isEmpty then some value else none
  | none => none

/-- Reads JSON text. -/
def parse? (s : String) : Option (Json ν) := ofChars? s.toList

end Json

end Choreography
