/-
Choreography/Instruction.lean

The result of compiling: for one element and one branch of the tree, keyframes at
fractions of a duration, which a player starts after a delay.

An `InstructionMap` holds the instructions that elements already have; it is what
an `animateChild` takes its animations from.  A `Placement` is such an instruction
put into its place in another run.
-/
import Choreography.Style

namespace Choreography

/-- The styles at one moment of an instruction. -/
structure Keyframe (τ : Type) where
  /-- The fraction of the duration that has passed. -/
  offset : τ
  /-- The easing towards the next keyframe. -/
  easing : Option String
  styles : StyleMap τ
  deriving DecidableEq

/-- Keyframes for an element. -/
structure Instruction (τ : Type) where
  element : ElementId
  keyframes : List (Keyframe τ)
  /-- Properties that a player has to look up before the animation. -/
  preStyleProps : OrderedSet String
  /-- Properties that a player has to look up after the animation. -/
  postStyleProps : OrderedSet String
  duration : τ
  delay : τ
  easing : Option String
  /-- Whether it was an instruction before this run. -/
  isSubTimeline : Bool
  /-- Whether its delay has been folded into the keyframes. -/
  isStretched : Bool
  /-- Whether its delay is to be folded into the keyframes once it is placed. -/
  stretchStart : Bool
  deriving DecidableEq

variable {τ : Type} [Quantity τ]

namespace Instruction

/-- Nothing to see for a while. -/
def empty (element : ElementId) (delay : τ) : Instruction τ where
  element := element
  keyframes := []
  preStyleProps := ∅
  postStyleProps := ∅
  duration := 0
  delay := delay
  easing := none
  isSubTimeline := false
  isStretched := false
  stretchStart := false

/-- The time until it is over. -/
def totalTime (i : Instruction τ) : τ := i.duration + i.delay

end Instruction

/-! ### Instructions by element -/

/-- The instructions of elements, in the order in which the elements came up. -/
abbrev InstructionMap (τ : Type) := OrderedMap ElementId (List (Instruction τ))

namespace InstructionMap

/-- The instructions of an element. -/
def instructions (m : InstructionMap τ) (e : ElementId) : List (Instruction τ) :=
  (m.get? e).getD []

/-- Adds instructions to those of an element. -/
def append (m : InstructionMap τ) (e : ElementId) (more : List (Instruction τ)) :
    InstructionMap τ :=
  m.insert e (m.instructions e ++ more)

omit [Quantity τ] in
/-- If one element alone has instructions, they are all that is found. -/
theorem mem_of_mem_instructions_ofList {e e' : ElementId} {is : List (Instruction τ)}
    {i : Instruction τ} (h : i ∈ instructions (.ofList [(e, is)]) e') : i ∈ is := by
  by_cases he : e' = e
  · subst he
    simpa [instructions, OrderedMap.ofList, OrderedMap.insertAll, OrderedMap.get?_insert] using h
  · simp [instructions, OrderedMap.ofList, OrderedMap.insertAll, OrderedMap.get?_insert, he] at h

end InstructionMap

/-! ### Placements -/

/-- An instruction with the duration and the delay it gets in another run. -/
structure Placement (τ : Type) where
  source : Instruction τ
  duration : τ
  delay : τ
  /-- Whether a delay is to be folded into the keyframes. -/
  stretch : Bool
  deriving DecidableEq

namespace Placement

/-- The element of the instruction. -/
def element (p : Placement τ) : ElementId := p.source.element

/-- A single keyframe does not move anything. -/
def containsAnimation (p : Placement τ) : Bool := 1 < p.source.keyframes.length

/-- Whether the delay is folded into the keyframes. -/
def isStretched (p : Placement τ) : Bool :=
  p.stretch && decide (0 < p.delay) && !p.source.keyframes.isEmpty

/-- The keyframes over the delay and the duration together: the first one is held
from the start to the end of the delay, the others share what remains.  Offsets
have three places. -/
def stretchedKeyframes (p : Placement τ) : List (Keyframe τ) :=
  let total := p.duration + p.delay
  match p.source.keyframes with
  | [] => []
  | first :: rest =>
    { first with offset := 0 } ::
    { first with offset := Quantity.toThousandths (p.delay / total) } ::
    rest.map fun k =>
      { k with offset := Quantity.toThousandths ((p.delay + k.offset * p.duration) / total) }

/-- The instruction in its place. -/
def toInstruction (p : Placement τ) : Instruction τ :=
  let placed := { p.source with isSubTimeline := true, stretchStart := false }
  if p.isStretched then
    { placed with
      keyframes := p.stretchedKeyframes
      duration := p.duration + p.delay
      delay := 0
      easing := none
      isStretched := true }
  else { placed with duration := p.duration, delay := p.delay, isStretched := false }

end Placement

end Choreography
