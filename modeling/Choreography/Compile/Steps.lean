/-
Choreography/Compile/Steps.lean

What each kind of node does.

A node that contains other nodes takes what they do as an argument (`Body`), so
each definition here is about one kind of node alone; `Choreography.Compile.Tree`
ties them together.  Where a node prepares something for the nodes inside it, the
walk in which they run has a name of its own (`openSequence`, `openBranch`,
`openMatch` and so on).
-/
import Choreography.Animation.Offsets
import Choreography.Compile.Scope

namespace Choreography

/-- What a node does to a walk. -/
abbrev Body (τ : Type) := Walk τ → Walk τ

namespace Walk

variable {τ : Type} [Quantity τ]

/-! ### Styles -/

/-- A style.  Outside an animated step it never changes a keyframe that holds styles
already: it waits for the next frame. -/
def style (step : StyleStep τ) (w : Walk τ) : Walk τ :=
  let w :=
    if w.scope.timings.isNone && w.timeline.hasCurrentStyles then
      w.edit (Scene.onTimeline Timeline.forwardFrame)
    else w
  let easing := (w.scope.timings.bind Timings.easing).or step.easing
  let w :=
    if step.entries.isEmpty then w.edit (Scene.setEmptyStep easing)
    else w.writeAt w.scope.timeline step.entries easing
  w.after .style

/-- The keyframe of a step, `offset` of the way through a duration. -/
def keyframe (id : TimelineId) (duration : τ) (step : StyleStep τ) (offset : τ) (w : Walk τ) :
    Walk τ :=
  let w := w.editAt id (Scene.forwardTo (offset * duration))
  (w.writeAt id step.entries step.easing).editAt id Scene.flush

/-- Keyframes.  They get a timeline of their own; this one takes note of their styles
and goes on when their time is over. -/
def keyframes (steps : List (StyleStep τ)) (w : Walk τ) : Walk τ :=
  match w.scope.timings with
  | none => w.report [.keyframesOutsideAnimate]
  | some timings =>
    let start := w.currentTime
    let inner := w.enter none w.scope.element
    let id := inner.scope.timeline
    let w := leave w.scope inner
    let w := w.editAt id (Scene.onTimeline ({ · with easing := timings.easing }))
    let w := (steps.zip (resolvedOffsets steps)).foldl
      (fun w step => w.keyframe id timings.duration step.1 step.2) w
    let w := { w with score := w.score.merge w.scope.timeline id }
    (w.renew (some (start + timings.duration))).after .keyframes

/-- Waits for the delay of an animated step, which keeps the styles that are there
before, and brings its timings into force. -/
def openAnimate (timings : Timings τ) (w : Walk τ) : Walk τ :=
  let w := w.withTimings (some timings)
  if 0 < timings.delay then (w.advance timings.delay).edit Scene.snapshot else w

/-- Moves to the target of an animated step. -/
def moveTo (duration : τ) (target : Target τ) (w : Walk τ) : Walk τ :=
  match target with
  | .keyframes steps => w.keyframes steps
  | .style step => ((w.advance duration).style step).edit Scene.flush

/-- An animated step. -/
def animate (timing : Timing τ) (target : Target τ) (w : Walk τ) : Walk τ :=
  let (timings, w) := w.readTiming timing false
  (((w.openAnimate timings).moveTo timings.duration target).withTimings none).after .animate

/-! ### Sequences and groups -/

/-- Steps one after another.  If one of them has entered a scope since there were
`forks`, the rest of the branch goes on in a new timeline. -/
def steps (forks : Nat) (bodies : List (Body τ)) (w : Walk τ) : Walk τ :=
  if bodies.isEmpty then w
  else
    let w := (bodies.foldl (fun w body => body w) w).edit Scene.flush
    if forks < w.scope.forks then w.renew none else w

/-- The options of a sequence that give it a scope of its own. -/
def scoping (options : Option (Options τ)) : Option (Options τ) :=
  options.filter fun o => o.params.isSome || o.delay.isSome

/-- The walk in which the steps of a sequence run: a scope of its own if the sequence
brings parameters or a delay. -/
def openSequence (options : Option (Options τ)) (w : Walk τ) : Walk τ :=
  match scoping options with
  | none => w
  | some o => ((w.enter (some o) w.scope.element).renew none).delay (delayOf (some o))

/-- A sequence. -/
def sequence (bodies : List (Body τ)) (options : Option (Options τ)) (w : Walk τ) : Walk τ :=
  let inner := (w.openSequence options).steps w.scope.forks bodies
  (if (scoping options).isSome then leave w.scope inner else inner).after .sequence

/-- The walk in which a branch of a group runs. -/
def openBranch (options : Option (Options τ)) (w : Walk τ) : Walk τ :=
  (w.enter options w.scope.element).delay (delayOf options)

/-- One branch of a group: the walk after it, the later of `furthest` and its end,
and its timeline. -/
def branch (options : Option (Options τ)) (body : Body τ) (furthest : τ) (w : Walk τ) :
    Walk τ × τ × TimelineId :=
  let inner := body (w.openBranch options)
  (leave w.scope inner, Quantity.later furthest inner.currentTime, inner.scope.timeline)

/-- The branches of a group. -/
def branches (options : Option (Options τ)) :
    List (Body τ) → τ → Walk τ → Walk τ × τ × List TimelineId
  | [], furthest, w => (w, furthest, [])
  | body :: bodies, furthest, w =>
    let (w, furthest, id) := w.branch options body furthest
    let (w, furthest, ids) := branches options bodies furthest w
    (w, furthest, id :: ids)

/-- Takes note of what branches wrote, one after another. -/
def gather (ids : List TimelineId) (w : Walk τ) : Walk τ :=
  { w with score := ids.foldl (fun score id => score.merge w.scope.timeline id) w.score }

/-- A group.  Its branches do not see each other; when all are done their styles are
gathered, and the next step begins when the longest branch is over. -/
def group (bodies : List (Body τ)) (options : Option (Options τ)) (w : Walk τ) : Walk τ :=
  let (w, furthest, ids) := branches options bodies w.currentTime w
  ((w.gather ids).renew (some furthest)).after .group

/-! ### References -/

/-- An animation with default parameters, which give way to those in force. -/
def reference (body : Body τ) (options : Option (Options τ)) (w : Walk τ) : Walk τ :=
  (body (w.update true options)).after .reference

/-- The delay of a reference or its use.  A text has its holes filled by the
parameters of the same options. -/
def referenceDelay (options : Option (Options τ)) (w : Walk τ) : Walk τ :=
  match options with
  | none => w
  | some o =>
    match o.delay with
    | none => w
    | some delay =>
      let (delay, reports) := delay.interpolate (o.params.getD ∅)
      (w.report reports).delay delay.milliseconds

/-- The walk in which the use of a reference runs. -/
def openUse (defaults options : Option (Options τ)) (w : Walk τ) : Walk τ :=
  (((w.enter options w.scope.element).renew none).referenceDelay options).referenceDelay defaults

/-- The use of a reference, in a scope of its own. -/
def animateRef (body : Body τ) (defaults options : Option (Options τ)) (w : Walk τ) : Walk τ :=
  let inner := (w.openUse defaults options).reference body defaults
  ((leave w.scope inner).renew (some inner.currentTime)).after .animateRef

/-! ### Delegation -/

/-- Places an instruction at the time of the scope, with the duration and the delay
in force; also tells when it ends. -/
def place (i : Instruction τ) (w : Walk τ) : τ × Walk τ :=
  let duration := w.scope.options.duration.getD i.duration
  let delay := w.currentTime + w.scope.options.delay.getD 0 + i.delay
  (duration + delay, { w with score := w.score.place ⟨i, duration, delay, i.stretchStart⟩ })

/-- Places instructions; also tells the latest of their ends and `furthest`. -/
def placeAll : List (Instruction τ) → τ → Walk τ → τ × Walk τ
  | [], furthest, w => (furthest, w)
  | i :: is, furthest, w =>
    let (finish, w) := w.place i
    placeAll is (Quantity.later furthest finish) w

/-- Places the instructions that an element has already.  A duration of zero leaves
them out. -/
def placeDelegated (setting : Setting τ) (w : Walk τ) : τ × Walk τ :=
  if w.scope.options.duration.any (· == 0) then (w.currentTime, w)
  else placeAll (setting.delegated.instructions w.scope.element) w.currentTime w

/-- The animations that the element has already, if it has any. -/
def animateChild (setting : Setting τ) (options : Option (Options τ)) (w : Walk τ) : Walk τ :=
  let w :=
    if setting.delegated.contains w.scope.element then
      let (finish, inner) := (w.enter options w.scope.element).placeDelegated setting
      let w := leave w.scope inner
      if w.currentTime != finish then w.renew (some finish) else w
    else w
  w.after .animateChild

/-! ### Queries and staggers -/

/-- The walk in which the match at a position runs. -/
def openMatch (options : Option (Options τ)) (element : ElementId) (index : Nat) (w : Walk τ) :
    Walk τ :=
  ({ w with scope := { w.scope with index := index } }.enter options element).delay
    (delayOf options)

/-- One match of a query: the walk after it, the later of `furthest` and its end, and
the timeline it started on. -/
def matched (options : Option (Options τ)) (body : Body τ) (element : ElementId) (index : Nat)
    (furthest : τ) (w : Walk τ) : Walk τ × τ × TimelineId :=
  let start := w.openMatch options element index
  let inner := (body start).edit Scene.flush
  (leave w.scope inner, Quantity.later furthest inner.currentTime, start.scope.timeline)

/-- The matches of a query from position `index` on; also tells the timeline of the
last match that is the element itself. -/
def matchesFrom (options : Option (Options τ)) (body : Body τ) :
    List ElementId → Nat → τ → Option TimelineId → Walk τ → Walk τ × τ × Option TimelineId
  | [], _, furthest, self, w => (w, furthest, self)
  | element :: elements, index, furthest, self, w =>
    let (w, furthest, id) := w.matched options body element index furthest
    matchesFrom options body elements (index + 1) furthest
      (if element = w.scope.element then some id else self) w

/-- Keeps the styles that a delayed query would otherwise overtake. -/
def holdStyles (delay : τ) (w : Walk τ) : Walk τ :=
  if delay != 0 && (w.scope.previous = some .style ||
      (w.currentTime == 0 && w.timeline.hasCurrentStyles)) then
    let w := w.edit Scene.snapshot
    { w with scope := { w.scope with previous := none } }
  else w

/-- The walk from which the matches of a query start. -/
def openQuery (q : Selection) (elements : List ElementId) (options : Option (Options τ))
    (w : Walk τ) : Walk τ :=
  let w := w.holdStyles (delayOf options)
  let w :=
    if !q.optional && elements.isEmpty then w.report [.unresolvableSelector q.display] else w
  { w with scope := { w.scope with total := elements.length, staggerTime := 0 } }

/-- Goes on after the matches of a query.  What it has written on the element itself is
kept. -/
def closeQuery (furthest : τ) (self : Option TimelineId) (w : Walk τ) : Walk τ :=
  let w := { w with scope := { w.scope with index := 0, total := 0 } }.renew (some furthest)
  match self with
  | some id => { w with score := w.score.merge w.scope.timeline id }.edit Scene.snapshot
  | none => w

/-- A query: its animation for each element it selects, side by side. -/
def query (setting : Setting τ) (body : Body τ) (q : Selection) (options : Option (Options τ))
    (w : Walk τ) : Walk τ :=
  let elements := setting.select w.scope.element q
  let (after, furthest, self) :=
    matchesFrom options body elements 0 w.currentTime none (w.openQuery q elements options)
  (after.closeQuery furthest self).after .query

/-- The easing that lets each match begin when the one before it has ended. -/
def chainedEasing : String := "full"

/-- The delay of a match under a stagger: its position times the step, counted from
the last match if the step is negative; or the time the match before it took. -/
def staggerDelay (timings : Timings τ) (index total : Nat) (chained : τ) : τ :=
  let step := Quantity.magnitude timings.duration
  if timings.duration < 0 then step * ((total : τ) - 1) - step * (index : τ)
  else if timings.easing = some chainedEasing then chained
  else step * (index : τ)

/-- The walk in which the animation of a stagger runs. -/
def openStagger (timing : Timing τ) (outer : Surroundings τ) (w : Walk τ) : Walk τ :=
  let (timings, w) := w.readTiming timing true
  w.delay (staggerDelay timings w.scope.index w.scope.total outer.staggerTime)

/-- Records for the matches to come how long a stagger has taken on a timeline, counted
from the start of the outer one. -/
def closeStagger (id : TimelineId) (start : τ) (outer : Surroundings τ) (w : Walk τ) : Walk τ :=
  let t := w.score.timeline id
  let staggerTime := t.currentTime - start + (t.start - outer.start)
  { w with scope := { w.scope with outer := some { outer with staggerTime := staggerTime } } }

/-- A stagger: its animation, delayed by the position among the matches. -/
def stagger (body : Body τ) (timing : Timing τ) (w : Walk τ) : Walk τ :=
  match w.scope.outer with
  | none => (body (w.report [.staggerOutsideQuery])).after .stagger
  | some outer =>
    let inner := w.openStagger timing outer
    ((body inner).after .stagger).closeStagger w.scope.timeline inner.currentTime outer

end Walk

end Choreography
