/-
Choreography/Diagnostic/Wire.lean

The JSON form of diagnostics: a record tagged by its kind.
-/
import Choreography.Diagnostic
import Choreography.Json

namespace Choreography

namespace Diagnostic

variable {τ : Type}

/-- The tag of a diagnostic. -/
def kindName : Diagnostic → String
  | unresolvableSelector _ => "unresolvable_selector"
  | missingParam _ => "param_interpolation"
  | malformedNode _ => "structural_node"
  | invalidTiming _ => "invalid_timing"
  | negativeDuration => "negative_step_value"
  | negativeDelay => "negative_delay_value"

/-- The fields of a diagnostic besides its tag. -/
def members : Diagnostic → List (String × Json τ)
  | unresolvableSelector s => [("selector", .text s)]
  | missingParam name => [("name", .text name)]
  | malformedNode message => [("message", .text message)]
  | invalidTiming value => [("value", .text value)]
  | negativeDuration | negativeDelay => []

/-- The JSON form of a diagnostic. -/
def toJson (d : Diagnostic) : Json τ := .object (("kind", .text d.kindName) :: d.members)

/-- Reads the only field of a diagnostic. -/
def only? (field : String) (j : Json τ) : Option String := do
  let [value] ← j.fields? [field] | none
  Json.required Json.text? value

/-- A record without fields: any object, or the empty array. -/
def nothing? : Json τ → Option Unit
  | .object _ => some ()
  | .array [] => some ()
  | _ => none

/-- Reads a diagnostic. -/
def ofJson? (j : Json τ) : Option Diagnostic := do
  guard j.isReadable
  let (.text tag, rest) ← j.tagged? "kind" | none
  match tag with
  | "unresolvable_selector" => (only? "selector" rest).map unresolvableSelector
  | "param_interpolation" => (only? "name" rest).map missingParam
  | "structural_node" => (only? "message" rest).map malformedNode
  | "invalid_timing" => (only? "value" rest).map invalidTiming
  | "negative_step_value" => (nothing? rest).map fun _ => negativeDuration
  | "negative_delay_value" => (nothing? rest).map fun _ => negativeDelay
  | _ => none

end Diagnostic

end Choreography
