/-
Choreography/Compile/Run.lean

Compiling a tree for an element.

The root timeline starts at zero, is delayed by the delay of the setup, and takes
the starting styles; then the tree does its work.  What has anything to show
becomes an instruction, in the order in which it was entered.  If nothing has, the
result is a single empty instruction for the root.

Final styles replace what a closing animation without styles has left to the
player; only the last entry for the root can take them.  Their holes are filled
with the parameters that are in force when the tree has done its work.
-/
import Choreography.Compile.Tree
import Choreography.Diagnostic

namespace Choreography

variable {τ : Type} [Quantity τ]

/-- The setting of a run. -/
def Setup.setting (setup : Setup τ) (host : Host) (delegated : InstructionMap τ) : Setting τ :=
  ⟨host, delegated, setup.enterClass, setup.leaveClass⟩

/-- The initial delay in milliseconds. -/
def Setup.delay (setup : Setup τ) : τ := Walk.delayOf (some setup.options)

/-- The parameters in force at the root. -/
def Setup.params (setup : Setup τ) : Params τ := setup.options.params.getD ∅

/-- The walk before the tree does anything. -/
def Walk.start (root : ElementId) (setup : Setup τ) (sink : List Diagnostic) : Walk τ :=
  let (id, score) := Score.empty.begin root (0 : τ)
  let scope := { Scope.begin root id with
    options :=
      { duration := setup.options.duration.map Scalar.milliseconds
        delay := some setup.delay
        params := setup.params } }
  let w := Walk.delay setup.delay ⟨scope, score, sink⟩
  w.writeAt id [.values setup.startingStyles] none

/-- The walk after the tree has done its work. -/
def Walk.run (setting : Setting τ) (root : ElementId) (tree : Animation τ) (setup : Setup τ)
    (sink : List Diagnostic) : Walk τ :=
  tree.body setting (.start root setup sink)

/-- The timeline that takes the final styles: the last animated entry for the root,
if it is a timeline and ends where an animation without styles has left it. -/
def Score.finalTimeline? (s : Score τ) (root : ElementId) : Option TimelineId :=
  match s.animated.reverse.find? (s.element · = root) with
  | some (.timeline id) => if (s.timeline id).allowsOnlyTimelineStyles then none else some id
  | _ => none

/-- Writes the final styles, if there are any and a timeline takes them. -/
def Walk.finish (root : ElementId) (setup : Setup τ) (w : Walk τ) : Walk τ :=
  if setup.finalStyles.isEmpty then w
  else
    match w.score.finalTimeline? root with
    | some id => w.writeAt id [.values setup.finalStyles] none
    | none => w

/-- Compiles a tree for an element.  Diagnostics are added to those of a sink. -/
def compileInto (host : Host) (root : ElementId) (tree : Animation τ) (setup : Setup τ)
    (delegated : InstructionMap τ) (sink : List Diagnostic) :
    List (Instruction τ) × List Diagnostic :=
  let w := Walk.run (setup.setting host delegated) root tree setup sink
  let entries := w.score.animated
  let finished := w.finish root setup
  (if entries.isEmpty then [.empty root setup.delay] else entries.map finished.score.instruction,
    finished.diagnostics)

/-- The result of a run. -/
structure Compiled (τ : Type) where
  instructions : List (Instruction τ)
  diagnostics : List Diagnostic
  deriving DecidableEq

namespace Compiled

/-- Whether nothing was recorded. -/
def isClean (c : Compiled τ) : Bool := c.diagnostics.isEmpty

/-- The instructions, for somebody to whom every diagnostic is fatal. -/
def strict (c : Compiled τ) : Except Failure (List (Instruction τ)) :=
  if c.diagnostics.isEmpty then .ok c.instructions else .error (.compile c.diagnostics)

end Compiled

/-- Compiles a tree for an element. -/
def compile (host : Host) (root : ElementId) (tree : Animation τ) (setup : Setup τ)
    (delegated : InstructionMap τ) : Compiled τ :=
  let (instructions, diagnostics) := compileInto host root tree setup delegated []
  ⟨instructions, diagnostics⟩

end Choreography
