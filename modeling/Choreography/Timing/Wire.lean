/-
Choreography/Timing/Wire.lean

The JSON form of timings: a text for an expression, a record for given numbers.
-/
import Choreography.Timing
import Choreography.Style.Wire

namespace Choreography

variable {τ : Type} [Quantity τ]

namespace Timings

/-- The JSON form of timings. -/
def toJson (t : Timings τ) : Json τ :=
  .object <| [("duration", Json.ofNumber t.duration), ("delay", Json.ofNumber t.delay)] ++
    Json.member "easing" Json.text t.easing

/-- Reads timings. -/
def ofJson? (j : Json τ) : Option (Timings τ) := do
  let [duration, delay, easing] ← j.fields? ["duration", "delay", "easing"] | none
  return {
    duration := ← Json.required Json.number? duration
    delay := ← Json.withDefault 0 Json.number? delay
    easing := ← Json.optional Json.text? easing }

end Timings

namespace Timing

/-- The JSON form of the timing of a step. -/
def toJson : Timing τ → Json τ
  | fixed t => t.toJson
  | expression s => .text s

/-- Reads the timing of a step from a readable value. -/
def ofJson? : Json τ → Option (Timing τ)
  | .text s => some (expression s)
  | j => (Timings.ofJson? j).map fixed

end Timing

end Choreography
