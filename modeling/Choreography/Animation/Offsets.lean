/-
Choreography/Animation/Offsets.lean

The offsets of keyframes, as fractions of the time they take together.

If no step declares an offset they are spread evenly from 0 to 1, a single step
being at 0; otherwise a step without an offset is at 0.
-/
import Choreography.Animation

namespace Choreography

variable {τ : Type} [Quantity τ]

/-- `count` offsets at equal distances, the last of them at 1. -/
def evenOffsets (count : Nat) : List τ :=
  if count ≤ 1 then List.replicate count 0
  else
    let gap : τ := 1 / ((count - 1 : Nat) : τ)
    (List.range count).map fun i => if i + 1 = count then 1 else (i : τ) * gap

/-- The offset of each step. -/
def resolvedOffsets (steps : List (StyleStep τ)) : List τ :=
  if steps.all (·.offset.isNone) then evenOffsets steps.length
  else steps.map fun step => step.offset.getD 0

end Choreography
