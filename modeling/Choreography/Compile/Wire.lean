/-
Choreography/Compile/Wire.lean

The JSON forms of what a compilation is given and of its result.
-/
import Choreography.Animation.Wire
import Choreography.Compile.Run
import Choreography.Diagnostic.Wire
import Choreography.Instruction.Wire

namespace Choreography

variable {τ : Type} [Quantity τ]

namespace QueryRow

/-- The JSON form of an answer. -/
def toJson (r : QueryRow) : Json τ :=
  .object [("context", r.context.toJson), ("selector", .text r.selector),
    ("matches", .array (r.elements.map ElementId.toJson))]

/-- Reads an answer. -/
def ofJson? (j : Json τ) : Option QueryRow := do
  let [context, selector, elements] ← j.fields? ["context", "selector", "matches"] | failure
  return {
    context := ← Json.required ElementId.ofJson? context
    selector := ← Json.required Json.text? selector
    elements := ← Json.withDefault [] (Json.list? ElementId.ofJson?) elements }

end QueryRow

namespace QueryTable

/-- The JSON form of a table. -/
def toJson (t : QueryTable) : Json τ := .array (t.rows.map QueryRow.toJson)

/-- Reads a table. -/
def ofJson? (j : Json τ) : Option QueryTable := (j.list? QueryRow.ofJson?).map QueryTable.mk

end QueryTable

namespace Setup

/-- The JSON form of a setup. -/
def toJson (s : Setup τ) : Json τ :=
  .object [("enter_class_name", .text s.enterClass), ("leave_class_name", .text s.leaveClass),
    ("starting_styles", StyleMap.toJson s.startingStyles),
    ("final_styles", StyleMap.toJson s.finalStyles), ("options", s.options.toJson)]

/-- Reads a setup. -/
def ofJson? (j : Json τ) : Option (Setup τ) := do
  let [enter, leave, starting, final, options] ← j.fields?
    ["enter_class_name", "leave_class_name", "starting_styles", "final_styles", "options"]
    | failure
  return {
    enterClass := ← Json.withDefault standardEnterClass Json.text? enter
    leaveClass := ← Json.withDefault standardLeaveClass Json.text? leave
    startingStyles := ← Json.withDefault ∅ StyleMap.ofJson? starting
    finalStyles := ← Json.withDefault ∅ StyleMap.ofJson? final
    options := ← Json.withDefault .none Options.ofJson? options }

end Setup

namespace Compiled

/-- The JSON form of a result. -/
def toJson (c : Compiled τ) : Json τ :=
  .object [("instructions", .array (c.instructions.map Instruction.toJson)),
    ("errors", .array (c.diagnostics.map Diagnostic.toJson))]

end Compiled

end Choreography
