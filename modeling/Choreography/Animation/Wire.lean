/-
Choreography/Animation/Wire.lean

The JSON form of animation trees.

A node is a record tagged by its kind.  Records are written as objects; fields that
are absent are left out where the form has a place for absence, and written with
their default otherwise.  The reader also takes a record as the array of its fields
and, inside another node, a kind by its position in the list of kinds.

A node is read with a bound for the depth of the tree, which `Animation.ofJson?`
takes from the JSON value.
-/
import Choreography.Animation
import Choreography.Timing.Wire

namespace Choreography

variable {τ : Type} [Quantity τ]

/-! ### Parts of nodes -/

namespace Options

/-- The JSON form of options. -/
def toJson (o : Options τ) : Json τ :=
  .object <| Json.member "delay" Scalar.toJson o.delay ++
    Json.member "duration" Scalar.toJson o.duration ++ Json.member "params" Params.toJson o.params

/-- Reads options. -/
def ofJson? (j : Json τ) : Option (Options τ) := do
  let [delay, duration, params] ← j.fields? ["delay", "duration", "params"] | failure
  return {
    delay := ← Json.optional Scalar.ofJson? delay
    duration := ← Json.optional Scalar.ofJson? duration
    params := ← Json.optional Params.ofJson? params }

/-- The member of a node that holds its options. -/
def member (o : Option (Options τ)) : List (String × Json τ) := Json.member "options" toJson o

/-- Reads the options of a node. -/
def field? (j : Option (Json τ)) : Option (Option (Options τ)) := Json.optional ofJson? j

end Options

namespace StyleEntry

/-- The JSON form of a style entry. -/
def toJson : StyleEntry τ → Json τ
  | values m => m.toJson
  | wildcard => .text StyleValue.autoToken

/-- Reads a style entry. -/
def ofJson? : Json τ → Option (StyleEntry τ)
  | .text s => if s = StyleValue.autoToken then some wildcard else none
  | j => (StyleMap.ofJson? j).map values

end StyleEntry

namespace StyleStep

/-- The members of a style. -/
def members (s : StyleStep τ) : List (String × Json τ) :=
  ("styles", .array (s.entries.map StyleEntry.toJson)) ::
    (Json.member "easing" Json.text s.easing ++ Json.member "offset" Json.ofNumber s.offset)

/-- The JSON form of a style. -/
def toJson (s : StyleStep τ) : Json τ := .object s.members

/-- Reads a style. -/
def ofJson? (j : Json τ) : Option (StyleStep τ) := do
  let [styles, easing, offset] ← j.fields? ["styles", "easing", "offset"] | failure
  return {
    entries := ← Json.withDefault [] (Json.list? StyleEntry.ofJson?) styles
    easing := ← Json.optional Json.text? easing
    offset := ← Json.optional Json.number? offset }

/-- The members of a list of keyframes. -/
def stepMembers (steps : List (StyleStep τ)) : List (String × Json τ) :=
  [("steps", .array (steps.map toJson))]

/-- Reads a list of keyframes. -/
def steps? (j : Json τ) : Option (List (StyleStep τ)) := do
  let [steps] ← j.fields? ["steps"] | failure
  Json.required (Json.list? ofJson?) steps

end StyleStep

namespace NamedState

/-- The members of a state. -/
def members (s : NamedState τ) : List (String × Json τ) :=
  [("name", .text s.name), ("style", s.style.toJson)]

/-- Reads a state. -/
def ofJson? (j : Json τ) : Option (NamedState τ) := do
  let [name, style] ← j.fields? ["name", "style"] | failure
  return { name := ← Json.required Json.text? name
           style := ← Json.required StyleStep.ofJson? style }

end NamedState

namespace Kind

/-- The tag of a kind as a member. -/
def member (k : Kind) : String × Json τ := ("type", .text k.tag)

/-- The kind that a tag names; by its position only inside another node. -/
def ofTag? (kinds : List Kind) (nested : Bool) : Json τ → Option Kind
  | .text s => kinds.find? (·.tag = s)
  | .whole n => if nested ∧ 0 ≤ n then kinds[n.toNat]? else none
  | _ => none

end Kind

namespace Target

/-- The JSON form of what an animated step moves to. -/
def toJson : Target τ → Json τ
  | style s => .object (Kind.member .style :: s.members)
  | keyframes steps => .object (Kind.member .keyframes :: StyleStep.stepMembers steps)

/-- Reads what an animated step moves to. -/
def ofJson? (j : Json τ) : Option (Target τ) := do
  let (tag, rest) ← j.tagged? "type"
  match ← Kind.ofTag? [.style, .keyframes] true tag with
  | .style => (StyleStep.ofJson? rest).map style
  | .keyframes => (StyleStep.steps? rest).map keyframes
  | _ => none

end Target

namespace Selection

/-- The members of a query that say which elements it is about. -/
def members (s : Selection) : List (String × Json τ) :=
  ("selector", .text s.selector) :: (Json.member "original_selector" Json.text s.written ++
    [("limit", .whole s.limit.toInt), ("optional", .bool s.optional),
      ("include_self", .bool s.includeSelf)])

/-- Reads a limit. -/
def limit? (j : Json τ) : Option Int32 :=
  (j.wholeIn? (-0x80000000) 0x7FFFFFFF).map Int32.ofInt

end Selection

/-! ### Nodes -/

namespace Transition

/-- Reads a transition, and the animation in it by `node?`. -/
def readWith? (node? : Json τ → Option (Animation τ)) (j : Json τ) : Option (Transition τ) := do
  let [expression, animation, options] ← j.fields? ["expr", "animation", "options"] | failure
  return .mk (← Json.required Json.text? expression) (← Json.required node? animation)
    (← Options.field? options)

end Transition

namespace Animation

mutual

/-- The JSON form of a tree. -/
def toJson : Animation τ → Json τ
  | trigger name states transitions =>
    .object [Kind.member .trigger, ("name", .text name),
      ("states", .array (states.map fun s => .object s.members)),
      ("transitions", .array (transitionsToJson transitions))]
  | state s => .object (Kind.member .state :: s.members)
  | transition t => .object (Kind.member .transition :: transitionMembers t)
  | sequence steps options =>
    .object (Kind.member .sequence :: ("steps", .array (stepsToJson steps)) :: Options.member options)
  | group steps options =>
    .object (Kind.member .group :: ("steps", .array (stepsToJson steps)) :: Options.member options)
  | animate timing target =>
    .object [Kind.member .animate, ("timings", timing.toJson), ("style", target.toJson)]
  | keyframes steps => .object (Kind.member .keyframes :: StyleStep.stepMembers steps)
  | style s => .object (Kind.member .style :: s.members)
  | reference animation options =>
    .object (Kind.member .reference :: ("animation", animation.toJson) :: Options.member options)
  | animateChild options => .object (Kind.member .animateChild :: Options.member options)
  | animateRef animation defaults options =>
    .object (Kind.member .animateRef ::
      ("animation", .object (("animation", animation.toJson) :: Options.member defaults)) ::
      Options.member options)
  | query selection animation options =>
    .object (Kind.member .query ::
      (selection.members ++ ("animation", animation.toJson) :: Options.member options))
  | stagger timing animation =>
    .object [Kind.member .stagger, ("timings", timing.toJson), ("animation", animation.toJson)]

/-- The members of a transition. -/
def transitionMembers : Transition τ → List (String × Json τ)
  | .mk expression animation options =>
    ("expr", .text expression) :: ("animation", animation.toJson) :: Options.member options

/-- The JSON forms of transitions. -/
def transitionsToJson : List (Transition τ) → List (Json τ)
  | [] => []
  | t :: ts => .object (transitionMembers t) :: transitionsToJson ts

/-- The JSON forms of steps. -/
def stepsToJson : List (Animation τ) → List (Json τ)
  | [] => []
  | step :: steps => step.toJson :: stepsToJson steps

end

/-- Reads an animation with options, and the animation by `node?`. -/
def referenceWith? (node? : Json τ → Option (Animation τ)) (j : Json τ) :
    Option (Animation τ × Option (Options τ)) := do
  let [animation, options] ← j.fields? ["animation", "options"] | failure
  return (← Json.required node? animation, ← Options.field? options)

/-- Reads steps with options, and each step by `node?`. -/
def stepsWith? (node? : Json τ → Option (Animation τ)) (j : Json τ) :
    Option (List (Animation τ) × Option (Options τ)) := do
  let [steps, options] ← j.fields? ["steps", "options"] | failure
  return (← Json.required (Json.list? node?) steps, ← Options.field? options)

/-- Reads the fields of a node of a kind, and the nodes in it by `node?`. -/
def fieldsWith? (node? : Json τ → Option (Animation τ)) (kind : Kind) (j : Json τ) :
    Option (Animation τ) :=
  match kind with
  | .trigger => do
    let [name, states, transitions] ← j.fields? ["name", "states", "transitions"] | failure
    return trigger (← Json.required Json.text? name)
      (← Json.withDefault [] (Json.list? NamedState.ofJson?) states)
      (← Json.withDefault [] (Json.list? (Transition.readWith? node?)) transitions)
  | .state => (NamedState.ofJson? j).map state
  | .transition => (Transition.readWith? node? j).map transition
  | .sequence => (stepsWith? node? j).map fun (steps, options) => sequence steps options
  | .group => (stepsWith? node? j).map fun (steps, options) => group steps options
  | .animate => do
    let [timings, target] ← j.fields? ["timings", "style"] | failure
    return animate (← Json.required Timing.ofJson? timings)
      (← Json.withDefault (.style .blank) Target.ofJson? target)
  | .keyframes => (StyleStep.steps? j).map keyframes
  | .style => (StyleStep.ofJson? j).map style
  | .reference => (referenceWith? node? j).map fun (a, options) => reference a options
  | .animateChild => do
    let [options] ← j.fields? ["options"] | failure
    return animateChild (← Options.field? options)
  | .animateRef => do
    let [animation, options] ← j.fields? ["animation", "options"] | failure
    let (a, defaults) ← Json.required (referenceWith? node?) animation
    return animateRef a defaults (← Options.field? options)
  | .query => do
    let [selector, written, limit, optional, includeSelf, animation, options] ← j.fields?
      ["selector", "original_selector", "limit", "optional", "include_self", "animation", "options"]
      | failure
    let selection : Selection := {
      selector := ← Json.required Json.text? selector
      written := ← Json.optional Json.text? written
      limit := ← Json.withDefault 0 Selection.limit? limit
      optional := ← Json.withDefault false Json.bool? optional
      includeSelf := ← Json.withDefault false Json.bool? includeSelf }
    return query selection (← Json.required node? animation) (← Options.field? options)
  | .stagger => do
    let [timings, animation] ← j.fields? ["timings", "animation"] | failure
    return stagger (← Json.required Timing.ofJson? timings) (← Json.required node? animation)

/-- Reads a node that is at most `fuel` levels deep. -/
def read? : Nat → Bool → Json τ → Option (Animation τ)
  | 0, _, _ => none
  | fuel + 1, nested, j => do
    let (tag, rest) ← j.tagged? "type"
    fieldsWith? (read? fuel true) (← Kind.ofTag? Kind.all nested tag) rest

/-- Reads a tree. -/
def ofJson? (j : Json τ) : Option (Animation τ) :=
  if j.isReadable then read? j.depth false j else none

end Animation

end Choreography
