/-
Choreography/Template.lean

Texts with holes for parameters: `{{ name }}`.

A text is first cut into a `Template`: pairs of a literal and the inside of the
hole after it, and the literal at the end.  A hole begins at the first doubled
opening brace and ends at the first doubled closing brace after it; an opening
without a closing is literal.  Rendering then replaces each hole by the text of
its parameter, which is not searched for holes again.  A hole whose parameter has
no value is reported and left empty; a blank hole is kept as it was written.
-/
import Choreography.Style
import Choreography.Diagnostic
import Choreography.Text.Blank
import Choreography.Text.Search

namespace Choreography

/-- A text cut at its holes. -/
structure Template where
  /-- A literal and the inside of the hole that follows it. -/
  holes : List (List Char × List Char)
  /-- The literal after the last hole. -/
  tail : List Char
  deriving DecidableEq

namespace Template

/-- Cuts a text at its holes, of which there are at most `fuel`. -/
def cut : Nat → List Char → Template
  | 0, cs => ⟨[], cs⟩
  | fuel + 1, cs =>
    match Text.cutAtDouble '{' cs with
    | none => ⟨[], cs⟩
    | some (literal, rest) =>
      match Text.cutAtDouble '}' rest with
      | none => ⟨[], cs⟩
      | some (hole, rest) =>
        let t := cut fuel rest
        ⟨(literal, hole) :: t.holes, t.tail⟩

/-- The template of a text. -/
def ofText (s : String) : Template := cut s.length s.toList

variable {τ : Type} [Quantity τ]

/-- What stands for a hole, and what is to be reported about it. -/
def fillHole (params : Params τ) (hole : List Char) : List Char × List Diagnostic :=
  let name := Text.trim hole
  if name.isEmpty then ('{' :: '{' :: hole ++ ['}', '}'], [])
  else
    match params.get? (String.ofList name) with
    | some value => (value.display.toList, [])
    | none => ([], [.missingParam (String.ofList name)])

/-- Fills the holes from left to right. -/
def fillHoles (params : Params τ) : List (List Char × List Char) → List Char × List Diagnostic
  | [] => ([], [])
  | (literal, hole) :: rest =>
    let (text, reports) := fillHole params hole
    let (texts, more) := fillHoles params rest
    (literal ++ text ++ texts, reports ++ more)

/-- The text of a template under parameters. -/
def render (params : Params τ) (t : Template) : String × List Diagnostic :=
  let (text, reports) := fillHoles params t.holes
  (String.ofList (text ++ t.tail), reports)

end Template

variable {τ : Type} [Quantity τ]

/-- Fills the holes of a text; a number has none. -/
def Scalar.interpolate (params : Params τ) : Scalar τ → Scalar τ × List Diagnostic
  | .number x => (.number x, [])
  | .text s =>
    let (s, reports) := (Template.ofText s).render params
    (.text s, reports)

/-- Fills the holes of a literal.  The result is a literal, whatever its text. -/
def StyleValue.interpolate (params : Params τ) : StyleValue τ → StyleValue τ × List Diagnostic
  | .literal s =>
    let (s, reports) := s.interpolate params
    (.literal s, reports)
  | v => (v, [])

end Choreography
