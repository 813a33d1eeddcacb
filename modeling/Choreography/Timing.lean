/-
Choreography/Timing.lean

Durations, delays and easings.

A step states its timing either in numbers (`Timings`) or by an expression, which
may have holes for parameters and is read when the step is compiled.  Times are in
milliseconds.
-/
import Choreography.Quantity

namespace Choreography

/-- A duration, a delay before it, and how progress is distributed over it. -/
structure Timings (τ : Type) where
  duration : τ
  delay : τ
  easing : Option String
  deriving DecidableEq, Repr

/-- No time at all. -/
def Timings.zero {τ : Type} [Quantity τ] : Timings τ := ⟨0, 0, none⟩

/-- The timing of a step: given, or to be read from an expression. -/
inductive Timing (τ : Type) where
  | fixed (timings : Timings τ)
  | expression (text : String)
  deriving DecidableEq, Repr

end Choreography
