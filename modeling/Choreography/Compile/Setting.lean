/-
Choreography/Compile/Setting.lean

What a compilation is given besides the tree.

The host resolves selectors to elements.  It is asked with a flag that says whether
more than one match is of use, and answers in document order.  A `QueryTable` is a
host with fixed answers.
-/
import Choreography.Animation
import Choreography.Instruction
import Choreography.Text.Search

namespace Choreography

/-! ### Hosts -/

/-- Resolves a selector from an element; the flag asks for all matches instead of
one. -/
abbrev Host := ElementId → String → Bool → List ElementId

/-- One answer of a table. -/
structure QueryRow where
  context : ElementId
  selector : String
  elements : List ElementId
  deriving DecidableEq

/-- A host with fixed answers; of several for the same question the first counts. -/
structure QueryTable where
  rows : List QueryRow
  deriving DecidableEq

namespace QueryTable

/-- Whether a row answers a question. -/
def answers (context : ElementId) (selector : String) (row : QueryRow) : Bool :=
  row.context = context && row.selector = selector

/-- Replaces the answer to a question, or adds it. -/
def withAnswer (t : QueryTable) (context : ElementId) (selector : String)
    (elements : List ElementId) : QueryTable :=
  match t.rows.findIdx? (answers context selector) with
  | some i => ⟨t.rows.modify i ({ · with elements := elements })⟩
  | none => ⟨t.rows ++ [⟨context, selector, elements⟩]⟩

/-- Asks a table.  What it has no answer for matches nothing. -/
def query (t : QueryTable) : Host := fun context selector multi =>
  match t.rows.find? (answers context selector) with
  | some row => if multi then row.elements else row.elements.take 1
  | none => []

end QueryTable

/-! ### Settings -/

/-- What the caller of a compilation chooses. -/
structure Setup (τ : Type) where
  /-- The class that stands for `:enter` in selectors. -/
  enterClass : String
  /-- The class that stands for `:leave` in selectors. -/
  leaveClass : String
  /-- Styles of the root element before the animation. -/
  startingStyles : StyleMap τ
  /-- Styles of the root element once a closing `animateAll` has settled. -/
  finalStyles : StyleMap τ
  /-- The initial delay and the parameters. -/
  options : Options τ
  deriving DecidableEq

namespace Setup

variable {τ : Type}

/-- The class for `:enter` of a caller who names none. -/
def standardEnterClass : String := "kf-enter"

/-- The class for `:leave` of a caller who names none. -/
def standardLeaveClass : String := "kf-leave"

/-- The choices of a caller who makes none. -/
def standard : Setup τ := ⟨standardEnterClass, standardLeaveClass, ∅, ∅, .none⟩

instance : Inhabited (Setup τ) := ⟨standard⟩

end Setup

/-- What every part of a compilation can look up. -/
structure Setting (τ : Type) where
  host : Host
  /-- The instructions that elements already have. -/
  delegated : InstructionMap τ
  enterClass : String
  leaveClass : String

namespace Setting

variable {τ : Type}

/-- The selector as the host knows it. -/
def hostSelector (s : Setting τ) (selector : String) : String :=
  Text.replaceAll ":leave" ("." ++ s.leaveClass)
    (Text.replaceAll ":enter" ("." ++ s.enterClass) selector)

/-- The matches that a limit leaves: all, the first few, or the last few. -/
def limited (limit : Int32) (elements : List ElementId) : List ElementId :=
  if 0 < limit.toInt then elements.take limit.toInt.toNat
  else if limit.toInt < 0 then elements.drop (elements.length - limit.toInt.natAbs)
  else elements

/-- The elements that a query selects, seen from an element: itself if it is
included, then the matches of the selector. -/
def select (s : Setting τ) (context : ElementId) (q : Selection) : List ElementId :=
  (if q.includeSelf then [context] else []) ++
    (if q.selector.isEmpty then []
     else limited q.limit (s.host context (s.hostSelector q.selector) (q.limit ≠ 1)))

end Setting

end Choreography
