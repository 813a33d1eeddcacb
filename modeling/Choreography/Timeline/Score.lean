/-
Choreography/Timeline/Score.lean

All timelines of a run.

A `Score` keeps its timelines under the handles that it gave out, together with the
styles that the timelines of an element share, and lists what was entered in the
order in which it was entered: timelines, which stay open to changes, and
placements, which are final.

An operation on a timeline is an operation on its scene, and every such operation
goes through `Score.put`.
-/
import Choreography.Timeline

namespace Choreography

/-- The handle of a timeline. -/
abbrev TimelineId := Nat

/-- What is listed in a score. -/
inductive Entry (τ : Type) where
  | timeline (id : TimelineId)
  | placed (p : Placement τ)
  deriving DecidableEq

/-- The timelines of a run. -/
structure Score (τ : Type) where
  timelines : List (Timeline τ)
  order : List (Entry τ)
  /-- What is known of an element among the timelines of a lineage. -/
  shared : OrderedMap (Nat × ElementId) (StyleMap τ)
  /-- How many lineages there are. -/
  lineages : Nat

namespace Score

variable {τ : Type} [Quantity τ]

/-- No timelines. -/
def empty : Score τ := ⟨[], [], ∅, 0⟩

/-- How many timelines and placements there are. -/
def size (s : Score τ) : Nat := s.order.length

/-- The timeline with a handle. -/
def timeline (s : Score τ) (id : TimelineId) : Timeline τ :=
  s.timelines.getD id (.begin 0 default 0 none)

/-- What is known of an element in a lineage. -/
def known (s : Score τ) (lineage : Nat) (element : ElementId) : StyleMap τ :=
  (s.shared.get? (lineage, element)).getD ∅

/-- A timeline with what is known of its element. -/
def scene (s : Score τ) (id : TimelineId) : Scene τ :=
  let t := s.timeline id
  ⟨t, s.known t.lineage t.element⟩

/-- Replaces a timeline and what is known of its element. -/
def put (s : Score τ) (id : TimelineId) (scene : Scene τ) : Score τ :=
  let t := s.timeline id
  { s with
    timelines := s.timelines.set id scene.timeline
    shared := s.shared.insert (t.lineage, t.element) scene.shared }

/-- Changes a timeline and what is known of its element. -/
def edit (s : Score τ) (id : TimelineId) (f : Scene τ → Scene τ) : Score τ :=
  s.put id (f (s.scene id))

/-- Enters a timeline of a lineage.  The first one of an element there has no memory
of its own. -/
def enter (s : Score τ) (lineage : Nat) (element : ElementId) (start : τ) :
    TimelineId × Score τ :=
  let isFirst := !s.shared.contains (lineage, element)
  let t := Timeline.begin lineage element start (if isFirst then none else some ∅)
  (s.timelines.length,
    { s with
      timelines := s.timelines ++ [t]
      order := s.order ++ [.timeline s.timelines.length]
      shared := if isFirst then s.shared.insert (lineage, element) ∅ else s.shared })

/-- Enters a timeline with a lineage of its own. -/
def begin (s : Score τ) (element : ElementId) (start : τ) : TimelineId × Score τ :=
  { s with lineages := s.lineages + 1 }.enter s.lineages element start

/-- Finishes the current keyframe of a timeline and enters another one of its
lineage, which starts at a given time; without one, or at zero, it starts where the
clock of the first stands. -/
def fork (s : Score τ) (id : TimelineId) (element : ElementId) (at? : Option τ) :
    TimelineId × Score τ :=
  let s := s.edit id Scene.flush
  let t := s.timeline id
  let start :=
    match at? with
    | some time => if time != 0 then time else t.currentTime
    | none => t.currentTime
  s.enter t.lineage element start

/-- Enters a placement. -/
def place (s : Score τ) (p : Placement τ) : Score τ :=
  { s with order := s.order ++ [.placed p] }

/-- Takes note on one timeline of what another one wrote later. -/
def merge (s : Score τ) (into source : TimelineId) : Score τ :=
  if into = source then s else s.edit into (Scene.merge (s.timeline source))

/-! ### What is listed -/

/-- The element of an entry. -/
def element (s : Score τ) : Entry τ → ElementId
  | .timeline id => (s.timeline id).element
  | .placed p => p.element

/-- Whether an entry has anything to show. -/
def containsAnimation (s : Score τ) : Entry τ → Bool
  | .timeline id => (s.timeline id).containsAnimation
  | .placed p => p.containsAnimation

/-- The instruction of an entry. -/
def instruction (s : Score τ) : Entry τ → Instruction τ
  | .timeline id => (s.scene id).toInstruction
  | .placed p => p.toInstruction

/-- The entries that have anything to show, in order. -/
def animated (s : Score τ) : List (Entry τ) := s.order.filter s.containsAnimation

end Score

end Choreography
