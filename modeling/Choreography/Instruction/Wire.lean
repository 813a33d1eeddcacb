/-
Choreography/Instruction/Wire.lean

The JSON form of instructions and of instruction maps.  In a map the instructions
of an element stand under its number.
-/
import Choreography.Instruction
import Choreography.Style.Wire

namespace Choreography

variable {τ : Type} [Quantity τ]

namespace Keyframe

/-- The JSON form of a keyframe. -/
def toJson (k : Keyframe τ) : Json τ :=
  .object <| ("offset", Json.ofNumber k.offset) :: (Json.member "easing" Json.text k.easing ++
    [("styles", StyleMap.toJson k.styles)])

/-- Reads a keyframe. -/
def ofJson? (j : Json τ) : Option (Keyframe τ) := do
  let [offset, easing, styles] ← j.fields? ["offset", "easing", "styles"] | failure
  return {
    offset := ← Json.required Json.number? offset
    easing := ← Json.optional Json.text? easing
    styles := ← Json.required StyleMap.ofJson? styles }

end Keyframe

namespace PropertySet

/-- The JSON form of a set of properties. -/
def toJson (s : OrderedSet String) : Json τ := .array (s.toList.map Json.text)

/-- Reads a set of properties. -/
def ofJson? (j : Json τ) : Option (OrderedSet String) := (Json.list? Json.text? j).map .ofList

end PropertySet

namespace Instruction

/-- The JSON form of an instruction. -/
def toJson (i : Instruction τ) : Json τ :=
  .object <| [("element", i.element.toJson), ("keyframes", .array (i.keyframes.map Keyframe.toJson)),
      ("pre_style_props", PropertySet.toJson i.preStyleProps),
      ("post_style_props", PropertySet.toJson i.postStyleProps),
      ("duration", Json.ofNumber i.duration), ("delay", Json.ofNumber i.delay)] ++
    (Json.member "easing" Json.text i.easing ++
      [("sub_timeline", .bool i.isSubTimeline), ("stretched", .bool i.isStretched),
        ("stretch_starting_keyframe", .bool i.stretchStart)])

/-- Reads an instruction. -/
def ofJson? (j : Json τ) : Option (Instruction τ) := do
  let [element, keyframes, pre, post, duration, delay, easing, sub, stretched, stretch] ← j.fields?
    ["element", "keyframes", "pre_style_props", "post_style_props", "duration", "delay", "easing",
      "sub_timeline", "stretched", "stretch_starting_keyframe"] | failure
  return {
    element := ← Json.required ElementId.ofJson? element
    keyframes := ← Json.required (Json.list? Keyframe.ofJson?) keyframes
    preStyleProps := ← Json.withDefault ∅ PropertySet.ofJson? pre
    postStyleProps := ← Json.withDefault ∅ PropertySet.ofJson? post
    duration := ← Json.required Json.number? duration
    delay := ← Json.required Json.number? delay
    easing := ← Json.optional Json.text? easing
    isSubTimeline := ← Json.withDefault false Json.bool? sub
    isStretched := ← Json.withDefault false Json.bool? stretched
    stretchStart := ← Json.withDefault false Json.bool? stretch }

end Instruction

namespace InstructionMap

/-- The JSON form of an instruction map. -/
def toJson (m : InstructionMap τ) : Json τ :=
  .object (m.entries.map fun (e, is) => (e.toKey, .array (is.map Instruction.toJson)))

/-- Reads an instruction map. -/
def ofJson? (j : Json τ) : Option (InstructionMap τ) := do
  let entries ← j.entries? (Json.list? Instruction.ofJson?)
  let entries ← entries.mapM fun (key, is) => (ElementId.ofKey? key).map fun e => (e, is)
  return .ofList entries

end InstructionMap

end Choreography
