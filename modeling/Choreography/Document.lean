/-
Choreography/Document.lean

Documents: everything one compilation needs, in one file.
-/
import Choreography.Animation.Validation
import Choreography.Compile.Wire

namespace Choreography

/-- A tree with its element and its surroundings. -/
structure Document (τ : Type) where
  root : ElementId
  animation : Animation τ
  /-- Answers that stand in for a live host. -/
  queries : QueryTable
  setup : Setup τ
  delegated : InstructionMap τ

namespace Document

variable {τ : Type} [Quantity τ]

/-- Reads a document. -/
def ofJson? (j : Json τ) : Option (Document τ) := do
  let [root, animation, queries, setup, delegated] ← j.fields?
    ["root", "animation", "queries", "opts", "sub_instructions"] | failure
  return {
    root := ← Json.required ElementId.ofJson? root
    animation := ← Json.required Animation.ofJson? animation
    queries := ← Json.withDefault ⟨[]⟩ QueryTable.ofJson? queries
    setup := ← Json.withDefault .standard Setup.ofJson? setup
    delegated := ← Json.withDefault ∅ InstructionMap.ofJson? delegated }

/-- Compiles the tree of a document. -/
def compile (d : Document τ) : Compiled τ :=
  Choreography.compile d.queries.query d.root d.animation d.setup d.delegated

end Document

end Choreography
