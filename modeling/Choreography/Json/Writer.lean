/-
Choreography/Json/Writer.lean

Writing JSON text, on one line or indented by two blanks a level.

Strings escape the quotation mark, the backslash and the control characters below
U+0020, the latter by a letter where JSON has one and by four lower-case
hexadecimal digits otherwise; all other characters stand for themselves.  A number
that is not finite is written as null.
-/
import Choreography.Json.Number

namespace Choreography

namespace Json

variable {ν : Type} [Quantity ν] [JsonNumber ν]

/-- The form of one character inside a string. -/
def escaped (c : Char) : List Char :=
  if c = '"' then ['\\', '"']
  else if c = '\\' then ['\\', '\\']
  else if c = '\x08' then ['\\', 'b']
  else if c = '\t' then ['\\', 't']
  else if c = '\n' then ['\\', 'n']
  else if c = '\x0c' then ['\\', 'f']
  else if c = '\r' then ['\\', 'r']
  else if c.toNat < 0x20 then
    ['\\', 'u', '0', '0', Nat.digitChar (c.toNat / 16), Nat.digitChar (c.toNat % 16)]
  else [c]

/-- A string between quotation marks. -/
def quoted (s : String) : List Char :=
  '"' :: s.toList.flatMap escaped ++ ['"']

/-- The text of a value without parts. -/
def scalarText : Json ν → List Char
  | bool true => "true".toList
  | bool false => "false".toList
  | whole n => (toString n).toList
  | real x => if Quantity.isFinite x then JsonNumber.write x else "null".toList
  | text s => quoted s
  | _ => "null".toList

/-! ### On one line -/

mutual

/-- The text of a value without any white space. -/
def compact : Json ν → List Char
  | array items => '[' :: compactItems items
  | object members => '{' :: compactMembers members
  | j => scalarText j

/-- The items of an array and its closing bracket. -/
def compactItems : List (Json ν) → List Char
  | [] => [']']
  | item :: items => compact item ++ (if items.isEmpty then [']'] else ',' :: compactItems items)

/-- The members of an object and its closing brace. -/
def compactMembers : List (String × Json ν) → List Char
  | [] => ['}']
  | (key, value) :: members =>
    quoted key ++ ':' :: compact value ++
      (if members.isEmpty then ['}'] else ',' :: compactMembers members)

end

/-! ### Indented -/

/-- The beginning of a line at a level. -/
def newLine (level : Nat) : List Char := '\n' :: List.replicate (2 * level) ' '

mutual

/-- The text of a value with one item or member on a line. -/
def indented (level : Nat) : Json ν → List Char
  | array [] => ['[', ']']
  | array (item :: items) => '[' :: indentedItems level (item :: items)
  | object [] => ['{', '}']
  | object (member :: members) => '{' :: indentedMembers level (member :: members)
  | j => scalarText j

def indentedItems (level : Nat) : List (Json ν) → List Char
  | [] => newLine level ++ [']']
  | item :: items =>
    newLine (level + 1) ++ indented (level + 1) item ++
      (if items.isEmpty then [] else [',']) ++ indentedItems level items

def indentedMembers (level : Nat) : List (String × Json ν) → List Char
  | [] => newLine level ++ ['}']
  | (key, value) :: members =>
    newLine (level + 1) ++ quoted key ++ ':' :: ' ' :: indented (level + 1) value ++
      (if members.isEmpty then [] else [',']) ++ indentedMembers level members

end

/-- The text of a value on one line. -/
def render (j : Json ν) : String := String.ofList j.compact

/-- The text of a value on several lines. -/
def renderPretty (j : Json ν) : String := String.ofList (j.indented 0)

end Json

end Choreography
