/-
Choreography/Animation.lean

The animation tree.

Steps run one after another in a `sequence` and side by side in a `group`.  A
`style` puts values on the element; an `animate` moves it to a style, or through
`keyframes`, in a given time.  A `query` repeats its animation for every element
that its selector matches, and a `stagger` inside it spreads the matches over time.
A `reference` names its animation's default parameters; an `animateRef` uses a
reference with parameters of its own; an `animateChild` leaves room for animations
that the element already has.  `trigger`, `state` and `transition` only describe
and never animate.
-/
import Choreography.Style
import Choreography.Timing

namespace Choreography

/-! ### Parts of nodes -/

/-- Overrides that a node carries.  Times are numbers of milliseconds or texts such
as `250ms`. -/
structure Options (τ : Type) where
  delay : Option (Scalar τ)
  duration : Option (Scalar τ)
  params : Option (Params τ)
  deriving DecidableEq

/-- No overrides. -/
def Options.none {τ : Type} : Options τ := ⟨.none, .none, .none⟩

/-- One entry of a style: values, or every property that is known of the element. -/
inductive StyleEntry (τ : Type) where
  | values (m : StyleMap τ)
  | wildcard
  deriving DecidableEq

/-- A style, with an easing towards what follows.  The offset counts only inside
`keyframes`. -/
structure StyleStep (τ : Type) where
  entries : List (StyleEntry τ)
  easing : Option String
  offset : Option τ
  deriving DecidableEq

/-- The style that names no property and stands for all that are known. -/
def StyleStep.blank {τ : Type} : StyleStep τ := ⟨[], none, none⟩

/-- What an `animate` moves to. -/
inductive Target (τ : Type) where
  | style (step : StyleStep τ)
  | keyframes (steps : List (StyleStep τ))
  deriving DecidableEq

/-- A named state of a trigger. -/
structure NamedState (τ : Type) where
  name : String
  style : StyleStep τ
  deriving DecidableEq

/-- Which elements a query is about. -/
structure Selection where
  /-- The selector for the host, without `:self`. -/
  selector : String
  /-- The selector as its author wrote it. -/
  written : Option String
  /-- `0` for all matches, `n > 0` for the first `n`, `n < 0` for the last `-n`. -/
  limit : Int32
  /-- Whether matching nothing is fine. -/
  optional : Bool
  /-- Whether the element itself is among the matches. -/
  includeSelf : Bool
  deriving DecidableEq

/-- The selector that a person recognises. -/
def Selection.display (s : Selection) : String := s.written.getD s.selector

/-! ### Nodes -/

mutual

/-- A node of the animation tree. -/
inductive Animation (τ : Type) where
  | trigger (name : String) (states : List (NamedState τ)) (transitions : List (Transition τ))
  | state (s : NamedState τ)
  | transition (t : Transition τ)
  | sequence (steps : List (Animation τ)) (options : Option (Options τ))
  | group (steps : List (Animation τ)) (options : Option (Options τ))
  | animate (timing : Timing τ) (target : Target τ)
  | keyframes (steps : List (StyleStep τ))
  | style (step : StyleStep τ)
  | reference (animation : Animation τ) (options : Option (Options τ))
  | animateChild (options : Option (Options τ))
  | animateRef (animation : Animation τ) (defaults options : Option (Options τ))
  | query (selection : Selection) (animation : Animation τ) (options : Option (Options τ))
  | stagger (timing : Timing τ) (animation : Animation τ)

/-- What happens when a trigger changes its state as `expression` says. -/
inductive Transition (τ : Type) where
  | mk (expression : String) (animation : Animation τ) (options : Option (Options τ))

end

/-- The thirteen kinds of nodes. -/
inductive Kind where
  | trigger
  | state
  | transition
  | sequence
  | group
  | animate
  | keyframes
  | style
  | reference
  | animateChild
  | animateRef
  | query
  | stagger
  deriving DecidableEq, Repr

namespace Kind

/-- All kinds in their order. -/
def all : List Kind :=
  [trigger, state, transition, sequence, group, animate, keyframes, style, reference,
    animateChild, animateRef, query, stagger]

/-- The name of a kind. -/
def name : Kind → String
  | trigger => "Trigger"
  | state => "State"
  | transition => "Transition"
  | sequence => "Sequence"
  | group => "Group"
  | animate => "Animate"
  | keyframes => "Keyframes"
  | style => "Style"
  | reference => "Reference"
  | animateChild => "AnimateChild"
  | animateRef => "AnimateRef"
  | query => "Query"
  | stagger => "Stagger"

/-- The word by which documents tell a kind. -/
def tag : Kind → String
  | trigger => "trigger"
  | state => "state"
  | transition => "transition"
  | sequence => "sequence"
  | group => "group"
  | animate => "animate"
  | keyframes => "keyframes"
  | style => "style"
  | reference => "reference"
  | animateChild => "animate_child"
  | animateRef => "animate_ref"
  | query => "query"
  | stagger => "stagger"

end Kind

/-- The kind of a node. -/
def Animation.kind {τ : Type} : Animation τ → Kind
  | .trigger .. => .trigger
  | .state .. => .state
  | .transition .. => .transition
  | .sequence .. => .sequence
  | .group .. => .group
  | .animate .. => .animate
  | .keyframes .. => .keyframes
  | .style .. => .style
  | .reference .. => .reference
  | .animateChild .. => .animateChild
  | .animateRef .. => .animateRef
  | .query .. => .query
  | .stagger .. => .stagger

end Choreography
