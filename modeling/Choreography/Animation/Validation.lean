/-
Choreography/Animation/Validation.lean

The rules that a well-formed tree obeys.

Compilation relies on them and does not enforce them.  `Animation.validate`
returns the first violation in document order, in which a node's own rule comes
before those of the nodes inside it.  States and the timings of staggers are free.
-/
import Choreography.Animation.Offsets
import Choreography.Diagnostic
import Choreography.Text.Blank

namespace Choreography

/-- The rules. -/
inductive Violation where
  | triggerWithoutName
  | durationOutOfRange
  | delayOutOfRange
  | keyframesOutsideAnimate
  | queryWithoutTarget
  | someOffsetsMissing
  | offsetOutOfRange
  | offsetsDescend
  deriving DecidableEq, Repr

/-- The wording of a violation. -/
def Violation.message : Violation → String
  | triggerWithoutName => "trigger name must be non-empty"
  | durationOutOfRange => "animate() duration must be finite and >= 0"
  | delayOutOfRange => "animate() delay must be finite and >= 0"
  | keyframesOutsideAnimate => "keyframes() must be used inside animate()"
  | queryWithoutTarget => "query selector must be non-empty unless it targets :self"
  | someOffsetsMissing => "either all keyframe steps declare an offset or none do"
  | offsetOutOfRange => "keyframe offsets must be within [0, 1]"
  | offsetsDescend => "keyframe offsets must be in ascending order"

/-- The failure that a violation amounts to. -/
def Violation.toFailure (v : Violation) : Failure := .validation v.message

variable {τ : Type} [Quantity τ]

/-- Whether every number is at most the next one. -/
def isAscending : List τ → Bool
  | a :: b :: rest => decide (a ≤ b) && isAscending (b :: rest)
  | _ => true

/-- The rules for keyframes: offsets for all steps or for none, between 0 and 1, and
ascending. -/
def validateKeyframes (steps : List (StyleStep τ)) : Except Violation Unit :=
  let declared := steps.countP (·.offset.isSome)
  let offsets := resolvedOffsets steps
  if declared ≠ 0 ∧ declared ≠ steps.length then .error .someOffsetsMissing
  else if offsets.any fun o => !(decide (0 ≤ o) && decide (o ≤ 1)) then .error .offsetOutOfRange
  else if !isAscending offsets then .error .offsetsDescend
  else .ok ()

/-- The rules for given timings: finite and not negative. -/
def validateTimings (t : Timings τ) : Except Violation Unit :=
  if !Quantity.isFinite t.duration || t.duration < 0 then .error .durationOutOfRange
  else if !Quantity.isFinite t.delay || t.delay < 0 then .error .delayOutOfRange
  else .ok ()

/-- The rules for an animated step. -/
def validateAnimate (timing : Timing τ) (target : Target τ) : Except Violation Unit := do
  match timing with
  | .fixed t => validateTimings t
  | .expression _ => .ok ()
  match target with
  | .keyframes steps => validateKeyframes steps
  | .style _ => .ok ()

/-- Whether a query says what it is about. -/
def Selection.hasTarget (s : Selection) : Bool :=
  s.includeSelf || !Text.isBlankText s.selector

mutual

/-- The first violation in a tree, if there is one. -/
def Animation.validate : Animation τ → Except Violation Unit
  | .trigger name _ transitions =>
    if Text.isBlankText name then .error .triggerWithoutName
    else validateTransitions transitions
  | .state _ => .ok ()
  | .transition t => t.validate
  | .sequence steps _ => validateSteps steps
  | .group steps _ => validateSteps steps
  | .animate timing target => validateAnimate timing target
  | .keyframes _ => .error .keyframesOutsideAnimate
  | .style _ => .ok ()
  | .reference animation _ => animation.validate
  | .animateChild _ => .ok ()
  | .animateRef animation _ _ => animation.validate
  | .query selection animation _ =>
    if selection.hasTarget then animation.validate else .error .queryWithoutTarget
  | .stagger _ animation => animation.validate

/-- The first violation in the animation of a transition. -/
def Transition.validate : Transition τ → Except Violation Unit
  | .mk _ animation _ => animation.validate

/-- The first violation in a list of nodes. -/
def validateSteps : List (Animation τ) → Except Violation Unit
  | [] => .ok ()
  | step :: steps => do
    step.validate
    validateSteps steps

/-- The first violation in a list of transitions. -/
def validateTransitions : List (Transition τ) → Except Violation Unit
  | [] => .ok ()
  | t :: ts => do
    t.validate
    validateTransitions ts

end

end Choreography
