/-
Choreography/Style.lean

Elements, and the values that styles and parameters take.

A style value is either a literal (a number or a text) or one of two placeholders,
which stand for what a player finds on screen: `auto` for the value after the
animation, `preSnapshot` for the value before it.  In documents the placeholders
are written as the texts `*` and `!`; a literal with such a text is possible (it
may come out of a template), but it cannot be written down.
-/
import Choreography.OrderedMap
import Choreography.Quantity

namespace Choreography

/-- A handle of an element.  Elements are only compared and passed on. -/
structure ElementId where
  index : UInt32
  deriving DecidableEq, Repr, Inhabited

/-- The text of a handle. -/
def ElementId.text (e : ElementId) : String := "#" ++ toString e.index.toNat

/-- A number or a text. -/
inductive Scalar (τ : Type) where
  | number (x : τ)
  | text (s : String)
  deriving DecidableEq, Repr

/-- The value of a style property. -/
inductive StyleValue (τ : Type) where
  | literal (s : Scalar τ)
  | auto
  | preSnapshot
  deriving DecidableEq, Repr

/-- The values of some style properties, in order. -/
abbrev StyleMap (τ : Type) := OrderedMap String (StyleValue τ)

/-- Named parameters, in order. -/
abbrev Params (τ : Type) := OrderedMap String (Scalar τ)

namespace Scalar

variable {τ : Type}

/-- The text, if the value is one. -/
def asText? : Scalar τ → Option String
  | text s => some s
  | number _ => none

/-- The value as part of another text. -/
def display [Quantity τ] : Scalar τ → String
  | number x => Quantity.text x
  | text s => s

end Scalar

namespace StyleValue

variable {τ : Type}

/-- How `auto` is written. -/
def autoToken : String := "*"

/-- How `preSnapshot` is written. -/
def preSnapshotToken : String := "!"

/-- Whether a player has to look the value up. -/
def isPlaceholder : StyleValue τ → Bool
  | literal _ => false
  | _ => true

/-- The style value that a scalar denotes. -/
def ofScalar : Scalar τ → StyleValue τ
  | .text s =>
    if s = autoToken then auto else if s = preSnapshotToken then preSnapshot else literal (.text s)
  | s => literal s

/-- The scalar that a style value is written as. -/
def toScalar : StyleValue τ → Scalar τ
  | literal s => s
  | auto => .text autoToken
  | preSnapshot => .text preSnapshotToken

end StyleValue

end Choreography
