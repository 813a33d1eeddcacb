/-
Choreography/Animation/Build.lean

Ways to put a tree together in a program.

A selector is a list separated by commas.  Its entry `:self` does not go to the
host: it means the element the query runs from (`Selection.ofWritten`).
-/
import Choreography.Animation
import Choreography.Text.Blank
import Choreography.Text.Search

namespace Choreography

/-! ### Selectors -/

namespace Selector

/-- The entry that means the element itself. -/
def selfEntry : List Char := ":self".toList

/-- The entries of a selector without the white space around them. -/
def entries (written : String) : List (List Char) :=
  (Text.splitOn ',' written.toList).map Text.trim

/-- Whether a selector names the element itself. -/
def namesSelf (written : String) : Bool :=
  (entries written).any (· = selfEntry)

/-- Puts the separator between entries. -/
def join : List (List Char) → List Char
  | [] => []
  | [entry] => entry
  | entry :: rest => entry ++ ',' :: ' ' :: join rest

/-- The entries for the host, separated uniformly. -/
def normalize (written : String) : String :=
  String.ofList (join ((entries written).filter fun e => e ≠ selfEntry ∧ !e.isEmpty))

end Selector

/-- The selection that a selector describes: all matches, at least one. -/
def Selection.ofWritten (written : String) : Selection where
  selector := Selector.normalize written
  written := some written
  limit := 0
  optional := false
  includeSelf := Selector.namesSelf written

variable {τ : Type}

/-! ### Options -/

namespace Options

/-- Replaces the delay. -/
def withDelay (o : Options τ) (delay : Scalar τ) : Options τ := { o with delay := some delay }

/-- Replaces the duration. -/
def withDuration (o : Options τ) (duration : Scalar τ) : Options τ :=
  { o with duration := some duration }

/-- Gives a parameter a value. -/
def withParam (o : Options τ) (name : String) (value : Scalar τ) : Options τ :=
  { o with params := some ((o.params.getD ∅).insert name value) }

end Options

/-! ### Timings and styles -/

/-- A duration without delay and easing. -/
def Timing.ofDuration [Quantity τ] (duration : τ) : Timing τ := .fixed ⟨duration, 0, .none⟩

namespace StyleStep

/-- Values for properties. -/
def ofEntries (entries : List (String × Scalar τ)) : StyleStep τ :=
  ⟨[.values (.ofList (entries.map fun (p, v) => (p, .ofScalar v)))], none, none⟩

/-- A keyframe at a fraction of the time. -/
def atOffset (offset : τ) (entries : List (String × Scalar τ)) : StyleStep τ :=
  { ofEntries entries with offset := some offset }

/-- Every property known of the element. -/
def wildcard : StyleStep τ := ⟨[.wildcard], none, none⟩

end StyleStep

/-! ### Nodes -/

namespace Animation

/-- A change to whatever is on screen when the time is over. -/
def animateAll (timing : Timing τ) : Animation τ := .animate timing (.style .blank)

/-- An animation for the elements that a selector matches. -/
def forEach (written : String) (animation : Animation τ) : Animation τ :=
  .query (.ofWritten written) animation none

/-- Replaces the limit of a query. -/
def withLimit (limit : Int32) : Animation τ → Animation τ
  | .query s a o => .query { s with limit := limit } a o
  | a => a

/-- Allows a query to match nothing. -/
def allowEmpty : Animation τ → Animation τ
  | .query s a o => .query { s with optional := true } a o
  | a => a

/-- Replaces the options of a query. -/
def withOptions (options : Options τ) : Animation τ → Animation τ
  | .query s a _ => .query s a (some options)
  | a => a

end Animation

end Choreography
