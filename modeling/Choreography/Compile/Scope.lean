/-
Choreography/Compile/Scope.lean

Where a subtree is compiled.

A `Scope` says which element and which timeline the next step is for, what is in
force there (options, parameters, the timings of an animated step around it), and
where among the matches of a query it stands.  A `Walk` is a scope together with
what the whole run has produced so far: the score and the diagnostics.

A subtree gets a scope of its own with `Walk.enter`, on a timeline forked from the
outer one, and hands what it produced back with `Walk.leave`.  Of the inner scope
nothing survives but the time that a stagger in it has recorded for its siblings.
-/
import Choreography.Compile.Setting
import Choreography.Timeline.Score
import Choreography.Timing.Expression

namespace Choreography

/-! ### Scopes -/

/-- Options in force, with times in milliseconds. -/
structure Overrides (τ : Type) where
  duration : Option τ
  delay : Option τ
  params : Params τ

namespace Overrides

variable {τ : Type} [Quantity τ]

/-- Nothing in force. -/
def none : Overrides τ := ⟨.none, .none, ∅⟩

/-- Brings parameters into force, each interpolated with those before it.  With
`keep`, a parameter that is in force stays as it is. -/
def addParams (keep : Bool) : List (String × Scalar τ) → Params τ → Params τ × List Diagnostic
  | [], params => (params, [])
  | (name, value) :: rest, params =>
    if keep && params.contains name then addParams keep rest params
    else
      let (value, reports) := value.interpolate params
      let (params, more) := addParams keep rest (params.insert name value)
      (params, reports ++ more)

/-- Brings the options of a node into force. -/
def update (keep : Bool) (options : Option (Options τ)) (o : Overrides τ) :
    Overrides τ × List Diagnostic :=
  match options with
  | .none => (o, [])
  | some options =>
    let (params, reports) := addParams keep ((options.params.getD ∅).entries) o.params
    ({ duration := (options.duration.map Scalar.milliseconds).or o.duration
       delay := (options.delay.map Scalar.milliseconds).or o.delay
       params := params }, reports)

end Overrides

/-- What a scope knows of the one around it. -/
structure Surroundings (τ : Type) where
  /-- How long the previous sibling under a stagger took, as far as it is recorded. -/
  staggerTime : τ
  /-- When the outer timeline started. -/
  start : τ

/-- Where a subtree is compiled. -/
structure Scope (τ : Type) where
  element : ElementId
  timeline : TimelineId
  outer : Option (Surroundings τ)
  /-- The kind of the node before, if it matters to the next one. -/
  previous : Option Kind
  /-- The timings of the animated step around. -/
  timings : Option (Timings τ)
  options : Overrides τ
  /-- How many scopes have been entered from this one. -/
  forks : Nat
  /-- The position among the matches of a query. -/
  index : Nat
  /-- The number of matches. -/
  total : Nat
  /-- The time that staggers in the scopes entered from this one have recorded. -/
  staggerTime : τ

/-- A scope on a timeline, with nothing in force. -/
def Scope.begin {τ : Type} [Quantity τ] (element : ElementId) (timeline : TimelineId) : Scope τ where
  element := element
  timeline := timeline
  outer := none
  previous := none
  timings := none
  options := .none
  forks := 0
  index := 0
  total := 0
  staggerTime := 0

/-! ### Walks -/

/-- A scope and what the run has produced. -/
structure Walk (τ : Type) where
  scope : Scope τ
  score : Score τ
  diagnostics : List Diagnostic

namespace Walk

variable {τ : Type} [Quantity τ]

/-- The timeline of the scope. -/
def timeline (w : Walk τ) : Timeline τ := w.score.timeline w.scope.timeline

/-- The absolute time at which the next step begins. -/
def currentTime (w : Walk τ) : τ := w.timeline.currentTime

/-- Records diagnostics. -/
def report (reports : List Diagnostic) (w : Walk τ) : Walk τ :=
  { w with diagnostics := w.diagnostics ++ reports }

/-- Changes a timeline of the run. -/
def editAt (id : TimelineId) (f : Scene τ → Scene τ) (w : Walk τ) : Walk τ :=
  { w with score := w.score.edit id f }

/-- Changes the timeline of the scope. -/
def edit (f : Scene τ → Scene τ) (w : Walk τ) : Walk τ := w.editAt w.scope.timeline f

/-- Remembers the kind of the node that was just compiled. -/
def after (kind : Kind) (w : Walk τ) : Walk τ :=
  { w with scope := { w.scope with previous := some kind } }

/-- Sets the timings of an animated step. -/
def withTimings (timings : Option (Timings τ)) (w : Walk τ) : Walk τ :=
  { w with scope := { w.scope with timings := timings } }

/-- Writes styles on a timeline of the run, with the parameters of the scope. -/
def writeAt (id : TimelineId) (entries : List (StyleEntry τ)) (easing : Option String)
    (w : Walk τ) : Walk τ :=
  let (scene, reports) := (w.score.scene id).setStyles entries easing w.scope.options.params
  { w with score := w.score.put id scene }.report reports

/-- Moves the clock by a time. -/
def advance (time : τ) (w : Walk τ) : Walk τ :=
  w.edit fun s => s.forwardTo (s.timeline.duration + time)

/-- Moves the next step by a delay, if there is one. -/
def delay (time : τ) (w : Walk τ) : Walk τ :=
  if 0 < time then w.edit (Scene.delayNextStep time) else w

/-- Brings options into force. -/
def update (keep : Bool) (options : Option (Options τ)) (w : Walk τ) : Walk τ :=
  let (overrides, reports) := w.scope.options.update keep options
  { w with scope := { w.scope with options := overrides } }.report reports

/-- Goes on in a new timeline of the element, so that later steps do not overlap
earlier ones. -/
def renew (at? : Option τ) (w : Walk τ) : Walk τ :=
  let (id, score) := w.score.fork w.scope.timeline w.scope.element at?
  { w with score := score, scope := { w.scope with previous := none, timeline := id } }

/-- Enters a scope for a subtree, on a timeline forked from this one.  The scope
inherits all but the duration and the delay in force; options of its own are
brought into force. -/
def enter (options : Option (Options τ)) (element : ElementId) (w : Walk τ) : Walk τ :=
  let (id, score) := w.score.fork w.scope.timeline element none
  let scope := Scope.begin element id
  { w with
    score := score
    scope := { scope with
      previous := w.scope.previous
      timings := w.scope.timings
      options := { Overrides.none with params := w.scope.options.params }
      index := w.scope.index
      total := w.scope.total
      outer := some ⟨w.scope.staggerTime, (score.timeline w.scope.timeline).start⟩ } }.update
    false options

/-- Returns to a scope from one that was entered from it. -/
def leave (scope : Scope τ) (inner : Walk τ) : Walk τ :=
  { inner with scope := { scope with
      forks := scope.forks + 1
      staggerTime := inner.scope.outer.elim scope.staggerTime Surroundings.staggerTime } }

/-- The milliseconds of the delay among options. -/
def delayOf (options : Option (Options τ)) : τ :=
  match options.bind Options.delay with
  | some delay => delay.milliseconds
  | none => 0

/-- The timings of a step, with their holes filled. -/
def readTiming (timing : Timing τ) (allowNegative : Bool) (w : Walk τ) : Timings τ × Walk τ :=
  match timing with
  | .fixed t => (t, w)
  | .expression text =>
    let (text, reports) := (Template.ofText text).render w.scope.options.params
    let (t, more) := Timings.read text allowNegative
    (t, w.report (reports ++ more))

end Walk

end Choreography
