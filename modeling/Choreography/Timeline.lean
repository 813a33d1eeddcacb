/-
Choreography/Timeline.lean

One element along one branch of the tree.

A `Timeline` has a clock of its own, which counts from its start.  Its keyframes
are told apart by that clock and stand in the order in which they were reached.
Writing a style does not touch a keyframe at once: the value waits among the
pending ones until the clock moves or the keyframe is otherwise finished, so that
the keyframe can then be completed with all that the branch knows of the element
(`Scene.flush`).

All timelines of an element share what is known of the element.  The first of them
has no memory besides; each later one remembers its own writes apart
(`Timeline.own`).  A property that is new to a branch is backfilled: keyframes from
before it was written show the element's last known value, or leave it to the
player.

Since several timelines read and write the same shared styles, the operations work
on a `Scene`: a timeline together with the styles its element shares.
-/
import Choreography.Animation
import Choreography.Instruction
import Choreography.Template

namespace Choreography

/-! ### Timelines -/

/-- The styles at a moment of a timeline, counted from its start. -/
structure TimedKeyframe (τ : Type) where
  time : τ
  easing : Option String
  styles : StyleMap τ
  deriving DecidableEq

/-- The last write of a property. -/
structure StyleAtTime (τ : Type) where
  time : τ
  value : StyleValue τ
  deriving DecidableEq

/-- The styles of one element along one branch. -/
structure Timeline (τ : Type) where
  /-- Timelines that were forked from one another share a lineage. -/
  lineage : Nat
  element : ElementId
  /-- When its clock starts, in absolute time. -/
  start : τ
  /-- What its clock shows. -/
  duration : τ
  easing : Option String
  keyframes : List (TimedKeyframe τ)
  /-- The keyframe that the clock is at. -/
  current : Nat
  /-- The keyframe before it. -/
  previous : Option Nat
  /-- What the branch knows of the element; `none` if that is all that is known. -/
  own : Option (StyleMap τ)
  /-- Values that wait to be put into the current keyframe. -/
  pending : StyleMap τ
  /-- Values for keyframes from before a property was written. -/
  backfill : StyleMap τ
  /-- The last write of each property on this timeline, in absolute time. -/
  summary : OrderedMap String (StyleAtTime τ)
  /-- The keyframe that the latest animation without styles moved to. -/
  emptyStep : Option Nat
  deriving DecidableEq

/-- How long a bare style waits for the next frame. -/
def oneFrame {τ : Type} [Quantity τ] : τ := 1

namespace Timeline

variable {τ : Type} [Quantity τ]

/-- A timeline at its start. -/
def begin (lineage : Nat) (element : ElementId) (start : τ) (own : Option (StyleMap τ)) :
    Timeline τ where
  lineage := lineage
  element := element
  start := start
  duration := 0
  easing := none
  keyframes := [⟨0, none, ∅⟩]
  current := 0
  previous := none
  own := own
  pending := ∅
  backfill := ∅
  summary := ∅
  emptyStep := none

/-- The absolute time that the clock stands for. -/
def currentTime (t : Timeline τ) : τ := t.start + t.duration

/-- The styles of the current keyframe. -/
def currentStyles (t : Timeline τ) : StyleMap τ :=
  (t.keyframes[t.current]?).elim ∅ TimedKeyframe.styles

/-- Whether the current keyframe holds styles. -/
def hasCurrentStyles (t : Timeline τ) : Bool := !t.currentStyles.isEmpty

/-- Whether there is anything to show: several keyframes, or a style in the only
one. -/
def containsAnimation (t : Timeline τ) : Bool :=
  match t.keyframes with
  | [] => false
  | [_] => t.hasCurrentStyles
  | _ => true

/-- Whether the current keyframe was not left by an animation without styles. -/
def allowsOnlyTimelineStyles (t : Timeline τ) : Bool := t.emptyStep != some t.current

/-- Changes the current keyframe. -/
def modifyCurrent (f : TimedKeyframe τ → TimedKeyframe τ) (t : Timeline τ) : Timeline τ :=
  { t with keyframes := t.keyframes.modify t.current f }

/-- Goes to the keyframe for what the clock shows, and makes one if there is none. -/
def loadKeyframe (t : Timeline τ) : Timeline τ :=
  let previous := if t.keyframes.isEmpty then t.previous else some t.current
  match t.keyframes.findIdx? (·.time == t.duration) with
  | some i => { t with previous := previous, current := i }
  | none =>
    { t with
      previous := previous
      current := t.keyframes.length
      keyframes := t.keyframes ++ [⟨t.duration, none, ∅⟩] }

/-- Moves the clock by one frame. -/
def forwardFrame (t : Timeline τ) : Timeline τ :=
  { t with duration := t.duration + oneFrame }.loadKeyframe

/-- Gives the step into the current keyframe an easing. -/
def easePrevious (easing : Option String) (t : Timeline τ) : Timeline τ :=
  match easing, t.previous with
  | some e, some i => { t with keyframes := t.keyframes.modify i ({ · with easing := some e }) }
  | _, _ => t

end Timeline

/-! ### Scenes -/

/-- A timeline and all that is known of its element. -/
structure Scene (τ : Type) where
  timeline : Timeline τ
  shared : StyleMap τ
  deriving DecidableEq

namespace Scene

variable {τ : Type} [Quantity τ]

/-- What the branch knows of the element. -/
def known (s : Scene τ) : StyleMap τ := s.timeline.own.getD s.shared

/-- Changes the timeline alone. -/
def onTimeline (f : Timeline τ → Timeline τ) (s : Scene τ) : Scene τ :=
  { s with timeline := f s.timeline }

/-- Takes note of a value: on the branch, for the element, and in the summary. -/
def note (property : String) (value : StyleValue τ) (s : Scene τ) : Scene τ where
  timeline :=
    { s.timeline with
      own := s.timeline.own.map (·.insert property value)
      summary := s.timeline.summary.insert property ⟨s.timeline.currentTime, value⟩ }
  shared := s.shared.insert property value

/-- Puts a value among the pending ones. -/
def queue (property : String) (value : StyleValue τ) : Scene τ → Scene τ :=
  onTimeline fun t => { t with pending := t.pending.insert property value }

/-- Backfills a property that the branch does not know yet. -/
def backfill (property : String) (s : Scene τ) : Scene τ :=
  if s.known.contains property then s
  else
    s.onTimeline fun t =>
      { t with backfill := t.backfill.insert property ((s.shared.get? property).getD .auto) }

/-- Writes a style: queues it, backfills it, and takes note of it. -/
def write (property : String) (value : StyleValue τ) (s : Scene τ) : Scene τ :=
  ((s.queue property value).backfill property).note property value

/-- The values that style entries stand for, where `known` is known. -/
def flatten (known : StyleMap τ) (entries : List (StyleEntry τ)) : StyleMap τ :=
  .ofList <| entries.flatMap fun
    | .wildcard => known.keys.map fun property => (property, .auto)
    | .values values => values.entries

/-- Writes styles one after another, each with its holes filled. -/
def writeAll (params : Params τ) : List (String × StyleValue τ) → Scene τ → Scene τ × List Diagnostic
  | [], s => (s, [])
  | (property, value) :: rest, s =>
    let (value, reports) := value.interpolate params
    let (s, more) := writeAll params rest (s.write property value)
    (s, reports ++ more)

/-- Writes the styles of a step for the current keyframe. -/
def setStyles (entries : List (StyleEntry τ)) (easing : Option String) (params : Params τ)
    (s : Scene τ) : Scene τ × List Diagnostic :=
  let s := s.onTimeline (Timeline.easePrevious easing)
  s.writeAll params (flatten s.shared entries).entries

/-- Moves to whatever is on screen: everything known of the element is left to the
player. -/
def setEmptyStep (easing : Option String) (s : Scene τ) : Scene τ :=
  (s.onTimeline (Timeline.easePrevious easing)).onTimeline fun t =>
    { t.modifyCurrent fun k =>
        { k with styles := k.styles.insertAll (s.shared.keys.map fun property => (property, .auto)) }
      with
      backfill := t.backfill.insertAll s.shared.entries
      emptyStep := some t.current }

/-- Finishes the current keyframe: puts the pending values into it and completes it
with what the branch knows. -/
def flush (s : Scene τ) : Scene τ :=
  if s.timeline.pending.isEmpty then s
  else
    s.onTimeline fun t =>
      { t.modifyCurrent fun k =>
          { k with styles := (k.styles.insertAll t.pending.entries).fill s.known.entries }
        with pending := ∅ }

/-- Queues all that the branch knows, so that it is kept whatever comes next. -/
def snapshot (s : Scene τ) : Scene τ :=
  s.known.entries.foldl (fun s entry => (s.queue entry.1 entry.2).note entry.1 entry.2) s

/-- Finishes the current keyframe and sets the clock. -/
def forwardTo (time : τ) (s : Scene τ) : Scene τ :=
  s.flush.onTimeline fun t => { t with duration := time }.loadKeyframe

/-- Moves the next step by a delay.  As long as nothing has happened on the timeline
its start is moved; a lone style in wait is kept at its time. -/
def delayNextStep (delay : τ) (s : Scene τ) : Scene τ :=
  let t := s.timeline
  let hasLoneStyle := t.keyframes.length = 1 && !t.pending.isEmpty
  if t.duration != 0 || hasLoneStyle then
    let s := s.forwardTo (t.duration + delay)
    if hasLoneStyle then s.snapshot else s
  else s.onTimeline fun t => { t with start := t.start + delay }

/-- Takes note of a value that was written elsewhere, unless this timeline wrote the
property at the same time or later. -/
def noteIfNewer (property : String) (theirs : StyleAtTime τ) (s : Scene τ) : Scene τ :=
  match s.timeline.summary.get? property with
  | none => s.note property theirs.value
  | some ours => if ours.time < theirs.time then s.note property theirs.value else s

/-- Takes note of what another timeline wrote later than this one. -/
def merge (other : Timeline τ) (s : Scene τ) : Scene τ :=
  other.summary.entries.foldl (fun s entry => s.noteIfNewer entry.1 entry.2) s

/-! ### The finished timeline -/

/-- Inserts a keyframe before the first one that does not sort before it. -/
def insertByOffset (k : Keyframe τ) : List (Keyframe τ) → List (Keyframe τ)
  | [] => [k]
  | other :: rest =>
    if Quantity.sortsBefore k.offset other.offset then k :: other :: rest
    else other :: insertByOffset k rest

/-- Sorts keyframes by their offsets; of equal ones the order is kept. -/
def sortByOffset (ks : List (Keyframe τ)) : List (Keyframe τ) := ks.foldr insertByOffset []

/-- The properties for which some keyframe has a value, in the order of appearance. -/
def propsWith (value : StyleValue τ → Bool) (ks : List (Keyframe τ)) : OrderedSet String :=
  .ofList (ks.flatMap fun k => (k.styles.entries.filter (value ·.2)).map Prod.fst)

/-- Whether a value is to be looked up before the animation. -/
def isPreSnapshot : StyleValue τ → Bool
  | .preSnapshot => true
  | _ => false

/-- Whether a value is to be looked up after the animation. -/
def isAuto : StyleValue τ → Bool
  | .auto => true
  | _ => false

/-- The instruction of a timeline.  A timeline that takes no time only puts styles
in their place; its keyframe stands at both ends. -/
def toInstruction (s : Scene τ) : Instruction τ :=
  let t := s.flush.timeline
  let isInstant := t.keyframes.length = 1 && t.duration == 0
  let keyframes := t.keyframes.map fun k =>
    { offset := if isInstant || t.duration == 0 then 0 else k.time / t.duration
      easing := k.easing
      styles := t.backfill.insertAll k.styles.entries : Keyframe τ }
  let sorted := sortByOffset keyframes
  { element := t.element
    keyframes := if isInstant then sorted ++ (sorted.take 1).map ({ · with offset := 1 }) else sorted
    preStyleProps := propsWith isPreSnapshot keyframes
    postStyleProps := propsWith isAuto keyframes
    duration := t.duration
    delay := t.start
    easing := t.easing
    isSubTimeline := false
    isStretched := false
    stretchStart := false }

end Scene

end Choreography
