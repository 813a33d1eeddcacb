/-
Choreography/Diagnostic.lean

What can go wrong.

A `Diagnostic` is recorded while a tree is compiled; compilation goes on and its
result is the best that can be made of the tree.  A `Failure` is final: it is the
answer to somebody who asked for a valid document or for a clean result.  Both are
causes; the wording is in `Diagnostic.message` and `Failure.message` alone.
-/

namespace Choreography

/-- Something that compilation found and worked around. -/
inductive Diagnostic where
  /-- A query that had to match something matched nothing. -/
  | unresolvableSelector (selector : String)
  /-- A parameter without a value. -/
  | missingParam (name : String)
  /-- A node in a place where it has no meaning. -/
  | malformedNode (message : String)
  /-- A timing that cannot be read, or has a part below zero. -/
  | invalidTiming (value : String)
  /-- A duration below zero. -/
  | negativeDuration
  /-- A delay below zero. -/
  | negativeDelay
  deriving DecidableEq, Repr

namespace Diagnostic

/-- The wording of a diagnostic. -/
def message : Diagnostic → String
  | unresolvableSelector s => "\x60query(\"" ++ s ++ "\")\x60 returned zero elements"
  | missingParam name => "please provide a value for the animation param " ++ name
  | malformedNode message => "malformed animation node: " ++ message
  | invalidTiming value => "the provided timing value \"" ++ value ++ "\" is invalid"
  | negativeDuration => "duration values below 0 are not allowed for this animation step"
  | negativeDelay => "delay values below 0 are not allowed for this animation step"

/-- Keyframes that no animated step holds. -/
def keyframesOutsideAnimate : Diagnostic :=
  malformedNode "keyframes() must be used inside animate()"

/-- A stagger that no query holds. -/
def staggerOutsideQuery : Diagnostic :=
  malformedNode "stagger() must be used inside query()"

end Diagnostic

/-- The reason for which there is no result. -/
inductive Failure where
  /-- A document breaks a rule of well-formed trees. -/
  | validation (message : String)
  /-- A strict compilation recorded something. -/
  | compile (diagnostics : List Diagnostic)
  /-- A document cannot be read or written. -/
  | serialization (message : String)
  /-- Any other reason, in its own words. -/
  | other (message : String)
  deriving DecidableEq, Repr

namespace Failure

/-- The wording of a failure. -/
def message : Failure → String
  | validation message => "validation error: " ++ message
  | compile diagnostics =>
    "compile error: " ++ "; ".intercalate (diagnostics.map Diagnostic.message)
  | serialization message => "serialization error: " ++ message
  | other message => message

end Failure

end Choreography
