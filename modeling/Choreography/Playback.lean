/-
Choreography/Playback.lean

Styles that cannot be animated.

Some properties have no values between two values; a player sets them when it
starts and when it finishes instead of moving them.  Whatever it overwrites it
restores in the end: the value a property had before is remembered, by the first
player that touches the property, in a `Record` that the players of an element
share through a table.  A player's `Phase` only moves forward.

A `Theatre` holds all of this: the live styles of elements, the records, the tables
that lead from elements to records, and the players.  A player keeps its record
when another player removes it from the table.  Every operation returns the calls
it made on the live styles, in order.
-/
import Choreography.Instruction

namespace Choreography

/-! ### Properties and live styles -/

/-- The properties that flip instead of moving. -/
def nonAnimatable : List String := ["display", "position"]

/-- Whether a property flips instead of moving. -/
def isNonAnimatable (property : String) : Bool := nonAnimatable.contains property

/-- The live styles of elements. -/
abbrev LiveStyles (τ : Type) := OrderedMap (ElementId × String) (StyleValue τ)

/-- A call on the live styles. -/
inductive StyleCall (τ : Type) where
  | get (element : ElementId) (property : String)
  | set (element : ElementId) (property : String) (value : StyleValue τ)
  | erase (element : ElementId) (property : String)
  deriving DecidableEq

/-- What a call does to the live styles. -/
def StyleCall.apply {τ : Type} : StyleCall τ → LiveStyles τ → LiveStyles τ
  | get _ _, live => live
  | set e property value, live => live.insert (e, property) value
  | erase e property, live => live.erase (e, property)

/-! ### Players -/

/-- The values that properties of an element had before; `none` for one that was not
set. -/
abbrev Record (τ : Type) := OrderedMap String (Option (StyleValue τ))

/-- How far a player has come. -/
inductive Phase where
  | pending
  | started
  | finished
  | destroyed
  deriving DecidableEq, Repr

namespace Phase

/-- The position of a phase in their order. -/
def rank : Phase → Nat
  | pending => 0
  | started => 1
  | finished => 2
  | destroyed => 3

/-- The name of a phase. -/
def name : Phase → String
  | pending => "Pending"
  | started => "Started"
  | finished => "Finished"
  | destroyed => "Destroyed"

end Phase

/-- A player of the styles that flip, for one element. -/
structure Player (τ : Type) where
  element : ElementId
  /-- The number of its table. -/
  table : Nat
  /-- The number of its record. -/
  record : Nat
  startStyles : StyleMap τ
  endStyles : StyleMap τ
  phase : Phase

/-- The styles that flip at the start: those of the first keyframe. -/
def flippingAtStart {τ : Type} (keyframes : List (Keyframe τ)) : StyleMap τ :=
  (keyframes.head?).elim ∅ fun k => k.styles.filterKeys isNonAnimatable

/-- The styles that flip at the end: those of the last keyframe, unless it is also
the first. -/
def flippingAtEnd {τ : Type} (keyframes : List (Keyframe τ)) : StyleMap τ :=
  if 1 < keyframes.length then
    (keyframes.getLast?).elim ∅ fun k => k.styles.filterKeys isNonAnimatable
  else ∅

/-! ### The theatre -/

/-- Live styles, records, tables and players. -/
structure Theatre (τ : Type) where
  live : LiveStyles τ
  records : List (Record τ)
  /-- From elements to the numbers of their records. -/
  tables : List (OrderedMap ElementId Nat)
  /-- Players by their numbers; `none` where none was made or it has left. -/
  players : List (Option (Player τ))

namespace Theatre

variable {τ : Type}

/-- No styles, no players, and one table. -/
def empty : Theatre τ := ⟨∅, [], [∅], []⟩

/-- A table by its number. -/
def table (t : Theatre τ) (n : Nat) : OrderedMap ElementId Nat := t.tables.getD n ∅

/-- A record by its number. -/
def record (t : Theatre τ) (n : Nat) : Record τ := t.records.getD n ∅

/-- A player by its number. -/
def player? (t : Theatre τ) (n : Nat) : Option (Player τ) := (t.players[n]?).join

/-- Whether a table has a record for an element. -/
def contains (t : Theatre τ) (table : Nat) (e : ElementId) : Bool := (t.table table).contains e

/-- The remembered value of a property, if there is one. -/
def initialValue? (t : Theatre τ) (table : Nat) (e : ElementId) (property : String) :
    Option (Option (StyleValue τ)) :=
  ((t.table table).get? e).bind fun n => (t.record n).get? property

/-- Adds an empty table. -/
def addTable (t : Theatre τ) : Theatre τ := { t with tables := t.tables ++ [∅] }

/-- Makes calls on the live styles. -/
def perform (calls : List (StyleCall τ)) (t : Theatre τ) : Theatre τ :=
  { t with live := calls.foldl (fun live call => call.apply live) t.live }

/-- The number of the record of an element, which is made if there is none. -/
def recordFor (table : Nat) (e : ElementId) (t : Theatre τ) : Nat × Theatre τ :=
  match (t.table table).get? e with
  | some n => (n, t)
  | none =>
    (t.records.length,
      { t with
        records := t.records ++ [∅]
        tables := t.tables.modify table (·.insert e t.records.length) })

/-- Makes a player for keyframes and gives it the next number.  Where nothing flips
there is no player, and no record is made. -/
def addPlayer (table : Nat) (e : ElementId) (keyframes : List (Keyframe τ)) (t : Theatre τ) :
    Theatre τ :=
  let startStyles := flippingAtStart keyframes
  let endStyles := flippingAtEnd keyframes
  if startStyles.isEmpty && endStyles.isEmpty then { t with players := t.players ++ [none] }
  else
    let (n, t) := t.recordFor table e
    { t with players := t.players ++ [some ⟨e, table, n, startStyles, endStyles, .pending⟩] }

/-! ### Phases -/

/-- Sets a start style, and remembers what was there before. -/
def setStartStyle (p : Player τ) (property : String) (value : StyleValue τ) (t : Theatre τ) :
    Theatre τ × List (StyleCall τ) :=
  if (t.record p.record).contains property then
    let calls := [.set p.element property value]
    (t.perform calls, calls)
  else
    let calls := [.get p.element property, .set p.element property value]
    let before := t.live.get? (p.element, property)
    let t := { t with records := t.records.modify p.record (·.insert property before) }
    (t.perform calls, calls)

/-- Sets start styles one after another. -/
def setStartStyles (p : Player τ) :
    List (String × StyleValue τ) → Theatre τ → Theatre τ × List (StyleCall τ)
  | [], t => (t, [])
  | (property, value) :: rest, t =>
    let (t, calls) := t.setStartStyle p property value
    let (t, more) := setStartStyles p rest t
    (t, calls ++ more)

/-- The calls that restore what a record remembers. -/
def restoring (e : ElementId) (r : Record τ) : List (StyleCall τ) :=
  r.entries.map fun
    | (property, some value) => .set e property value
    | (property, none) => .erase e property

/-- Replaces a player. -/
def setPlayer (n : Nat) (p : Player τ) (t : Theatre τ) : Theatre τ :=
  { t with players := t.players.set n (some p) }

/-- Takes a pending player to its start. -/
def enterStarted (n : Nat) (p : Player τ) (t : Theatre τ) : Theatre τ × List (StyleCall τ) :=
  let (t, calls) := t.setStartStyles p p.startStyles.entries
  (t.setPlayer n { p with phase := .started }, calls)

/-- Takes a started player to its end: restores what was there before, and sets the
end styles. -/
def enterFinished (n : Nat) (p : Player τ) (t : Theatre τ) : Theatre τ × List (StyleCall τ) :=
  let calls := restoring p.element (t.record p.record) ++
    p.endStyles.entries.map fun (property, value) => .set p.element property value
  ((t.perform calls).setPlayer n { p with phase := .finished }, calls)

/-- Destroys a finished player: forgets the record, erases what the player has set,
and restores what was there before. -/
def enterDestroyed (n : Nat) (p : Player τ) (t : Theatre τ) : Theatre τ × List (StyleCall τ) :=
  let calls := (p.startStyles.keys ++ p.endStyles.keys).map (StyleCall.erase p.element) ++
    restoring p.element (t.record p.record)
  let t := { t with tables := t.tables.modify p.table (·.erase p.element) }
  ((t.perform calls).setPlayer n { p with phase := .destroyed, startStyles := ∅, endStyles := ∅ },
    calls)

/-- The step from a phase to the next one. -/
def step (n : Nat) (p : Player τ) (t : Theatre τ) : Theatre τ × List (StyleCall τ) :=
  match p.phase with
  | .pending => t.enterStarted n p
  | .started => t.enterFinished n p
  | .finished => t.enterDestroyed n p
  | .destroyed => (t, [])

/-- Steps a player forward until it has reached a phase, at most `fuel` times. -/
def advance (goal : Phase) (n : Nat) : Nat → Theatre τ → Theatre τ × List (StyleCall τ)
  | 0, t => (t, [])
  | fuel + 1, t =>
    match t.player? n with
    | some p =>
      if p.phase.rank < goal.rank then
        let (t, calls) := t.step n p
        let (t, more) := advance goal n fuel t
        (t, calls ++ more)
      else (t, [])
    | none => (t, [])

/-- Takes a player to a phase, through all phases in between; a player that is there
or beyond stays as it is. -/
def take (goal : Phase) (n : Nat) (t : Theatre τ) : Theatre τ × List (StyleCall τ) :=
  t.advance goal n 3

/-- Starts a player. -/
def start (n : Nat) (t : Theatre τ) : Theatre τ × List (StyleCall τ) := t.take .started n

/-- Finishes a player, starting it before if need be. -/
def finish (n : Nat) (t : Theatre τ) : Theatre τ × List (StyleCall τ) := t.take .finished n

/-- Destroys a player, finishing it before if need be. -/
def destroy (n : Nat) (t : Theatre τ) : Theatre τ × List (StyleCall τ) := t.take .destroyed n

/-- Destroys a player and lets it go. -/
def drop (n : Nat) (t : Theatre τ) : Theatre τ × List (StyleCall τ) :=
  let (t, calls) := t.destroy n
  ({ t with players := t.players.set n none }, calls)

/-- Lets players go one after another. -/
def dropAll : List Nat → Theatre τ → Theatre τ × List (StyleCall τ)
  | [], t => (t, [])
  | n :: rest, t =>
    let (t, calls) := t.drop n
    let (t, more) := dropAll rest t
    (t, calls ++ more)

/-- Lets all players go, in the order of their numbers. -/
def close (t : Theatre τ) : Theatre τ × List (StyleCall τ) :=
  t.dropAll (List.range t.players.length)

end Theatre

end Choreography
