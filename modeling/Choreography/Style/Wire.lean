/-
Choreography/Style/Wire.lean

The JSON forms of handles, scalars, style values and their maps.
-/
import Choreography.Style
import Choreography.Json.Number

namespace Choreography

variable {τ : Type}

namespace Json

/-- Reads a whole number of a range. -/
def wholeIn? (low high : Int) : Json τ → Option Int
  | whole n => if low ≤ n ∧ n ≤ high then some n else none
  | _ => none

end Json

namespace ElementId

/-- The JSON form of a handle: its number. -/
def toJson (e : ElementId) : Json τ := .whole e.index.toNat

/-- Reads a handle. -/
def ofJson? (j : Json τ) : Option ElementId :=
  (j.wholeIn? 0 0xFFFFFFFF).map fun n => ⟨UInt32.ofNat n.toNat⟩

/-- The key under which an object holds what belongs to a handle. -/
def toKey (e : ElementId) : String := toString e.index.toNat

/-- Reads a key: decimal digits without a leading zero. -/
def ofKey? (key : String) : Option ElementId :=
  match Decimal.digits? 0 key.toList with
  | some n =>
    if n ≤ 0xFFFFFFFF ∧ Decimal.numeralText n = key.toList then some ⟨UInt32.ofNat n⟩ else none
  | none => none

end ElementId

variable [Quantity τ]

namespace Scalar

/-- The JSON form of a scalar. -/
def toJson : Scalar τ → Json τ
  | number x => Json.ofNumber x
  | text s => .text s

/-- Reads a number or a text. -/
def ofJson? (j : Json τ) : Option (Scalar τ) :=
  match j with
  | .text s => some (text s)
  | j => j.number?.map number

end Scalar

namespace StyleValue

/-- The JSON form of a style value. -/
def toJson (v : StyleValue τ) : Json τ := v.toScalar.toJson

/-- Reads a style value. -/
def ofJson? (j : Json τ) : Option (StyleValue τ) := (Scalar.ofJson? j).map ofScalar

end StyleValue

namespace OrderedMap

/-- The JSON form of a map with texts as keys. -/
def toJson {α : Type} (write : α → Json τ) (m : OrderedMap String α) : Json τ :=
  .object (m.entries.map fun (key, a) => (key, write a))

/-- Reads a map with texts as keys.  Keys may be repeated. -/
def ofJson? {α : Type} (read : Json τ → Option α) (j : Json τ) : Option (OrderedMap String α) :=
  (j.entries? read).map ofList

end OrderedMap

namespace StyleMap

/-- The JSON form of a style map. -/
def toJson (m : StyleMap τ) : Json τ := OrderedMap.toJson StyleValue.toJson m

/-- Reads a style map. -/
def ofJson? (j : Json τ) : Option (StyleMap τ) := OrderedMap.ofJson? StyleValue.ofJson? j

end StyleMap

namespace Params

/-- The JSON form of parameters. -/
def toJson (m : Params τ) : Json τ := OrderedMap.toJson Scalar.toJson m

/-- Reads parameters. -/
def ofJson? (j : Json τ) : Option (Params τ) := OrderedMap.ofJson? Scalar.ofJson? j

end Params

end Choreography
