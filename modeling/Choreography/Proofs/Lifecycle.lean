/-
Choreography/Proofs/Lifecycle.lean

The life of a player.

A player goes through its phases one after another, so going to a phase and on to a later one
is going there at once, with the same calls on the live styles (`take_take`).  A run of
directions is therefore as good as the one that leads furthest (`directAll_eq_take`): what
comes before it is on the way, and what comes after it finds the player there already.

Main result: `directAll_eq_furthest`.
-/
import Choreography.Proofs.Restoration

namespace Choreography

variable {τ : Type}

/-! ### Directions -/

/-- What can be asked of a player. -/
inductive Direction where
  | start
  | finish
  | destroy
  deriving DecidableEq, Repr

namespace Direction

/-- The phase that a direction leads to. -/
def goal : Direction → Phase
  | start => .started
  | finish => .finished
  | destroy => .destroyed

end Direction

namespace Theatre

/-- Gives a player a direction. -/
def direct (n : Nat) (d : Direction) (t : Theatre τ) : Theatre τ × List (StyleCall τ) :=
  match d with
  | .start => t.start n
  | .finish => t.finish n
  | .destroy => t.destroy n

/-- Gives a player directions, one after another. -/
def directAll (n : Nat) : List Direction → Theatre τ → Theatre τ × List (StyleCall τ)
  | [], t => (t, [])
  | d :: rest, t =>
    let (t, calls) := t.direct n d
    let (t, more) := directAll n rest t
    (t, calls ++ more)

theorem direct_eq_take (n : Nat) (d : Direction) (t : Theatre τ) :
    t.direct n d = t.take d.goal n := by
  cases d <;> rfl

/-! ### From phase to phase -/

/-- Going to a phase and on to a later one is going there at once. -/
theorem take_take {goal later : Phase} (h : goal.rank ≤ later.rank) (n : Nat) (t : Theatre τ) :
    (((t.take goal n).1.take later n).1, (t.take goal n).2 ++ ((t.take goal n).1.take later n).2) =
      t.take later n := by
  cases hp : t.player? n with
  | none => rw [take_eq_of_none hp, take_eq_of_none hp, List.append_nil]
  | some p =>
    -- by induction on the way to the first phase
    induction hway : goal.rank - p.phase.rank generalizing t p with
    | zero =>
      have hreached : goal.rank ≤ p.phase.rank := by omega
      rw [take_eq_of_reached hp hreached, List.nil_append]
    | succ way ih =>
      have hlt : p.phase.rank < goal.rank := by omega
      have hrank := Player.rank_next_of_lt hlt
      have hrest := ih (t.step n p).1 p.next (player?_step hp) (by omega)
      rw [take_eq_of_lt hp hlt, take_eq_of_lt hp (Nat.lt_of_lt_of_le hlt h), ← hrest,
        List.append_assoc]

/-- Going back to an earlier phase does nothing. -/
theorem take_of_passed {goal earlier : Phase} (h : earlier.rank ≤ goal.rank) (n : Nat)
    (t : Theatre τ) : (t.take goal n).1.take earlier n = ((t.take goal n).1, []) := by
  cases hp : t.player? n with
  | none => rw [take_eq_of_none hp, take_eq_of_none hp]
  | some p =>
    obtain ⟨q, hq, hrank⟩ := player?_take hp goal
    exact take_eq_of_reached hq (Nat.le_trans h hrank)

/-! ### Runs of directions -/

theorem directAll_cons (n : Nat) (d : Direction) (rest : List Direction) (t : Theatre τ) :
    t.directAll n (d :: rest) =
      (((t.take d.goal n).1.directAll n rest).1,
        (t.take d.goal n).2 ++ ((t.take d.goal n).1.directAll n rest).2) := by
  rw [← direct_eq_take]
  rfl

theorem directAll_append (n : Nat) (directions more : List Direction) (t : Theatre τ) :
    t.directAll n (directions ++ more) =
      (((t.directAll n directions).1.directAll n more).1,
        (t.directAll n directions).2 ++ ((t.directAll n directions).1.directAll n more).2) := by
  induction directions generalizing t with
  | nil => rfl
  | cons d rest ih =>
    simp only [List.cons_append, directAll_cons, ih, List.append_assoc]

/-- Directions lead a player forward only. -/
theorem rank_directAll {n : Nat} {t : Theatre τ} {p : Player τ} (h : t.player? n = some p)
    (directions : List Direction) : ∃ q, (t.directAll n directions).1.player? n = some q
      ∧ p.phase.rank ≤ q.phase.rank := by
  induction directions generalizing t p with
  | nil => exact ⟨p, h, Nat.le_refl _⟩
  | cons d rest ih =>
    obtain ⟨between, hbetween, hrank⟩ := rank_take h d.goal
    obtain ⟨q, hq, hle⟩ := ih hbetween
    rw [directAll_cons]
    exact ⟨q, hq, Nat.le_trans (hrank ▸ Nat.le_max_left _ _) hle⟩

/-- Directions to where a player has been do nothing. -/
theorem directAll_of_passed {goal : Phase} {directions : List Direction}
    (h : ∀ d ∈ directions, d.goal.rank ≤ goal.rank) (n : Nat) (t : Theatre τ) :
    (t.take goal n).1.directAll n directions = ((t.take goal n).1, []) := by
  induction directions with
  | nil => rfl
  | cons d rest ih =>
    obtain ⟨hd, hrest⟩ := List.forall_mem_cons.1 h
    rw [directAll_cons, take_of_passed hd, ih hrest, List.append_nil]

/-- A run of directions leads where the one that leads furthest does, and on the same way. -/
theorem directAll_eq_take {furthest : Direction} {directions : List Direction}
    (hmem : furthest ∈ directions) (h : ∀ d ∈ directions, d.goal.rank ≤ furthest.goal.rank)
    (n : Nat) (t : Theatre τ) : t.directAll n directions = t.take furthest.goal n := by
  induction directions generalizing t with
  | nil => cases hmem
  | cons d rest ih =>
    obtain ⟨hd, hrest⟩ := List.forall_mem_cons.1 h
    rw [directAll_cons]
    -- the furthest direction is this one, with nothing left to do, or a later one
    rcases List.mem_cons.1 hmem with rfl | hlater
    · rw [directAll_of_passed hrest, List.append_nil]
    · rw [ih hlater hrest]
      exact take_take hd n t

/-- A destroyed player makes no more calls, also when it is let go. -/
theorem drop_of_destroyed (n : Nat) (t : Theatre τ) :
    (t.destroy n).1.drop n =
      ({ (t.destroy n).1 with players := (t.destroy n).1.players.set n none }, []) := by
  have hstays : (t.destroy n).1.destroy n = ((t.destroy n).1, []) :=
    take_of_passed (Nat.le_refl _) n t
  rw [drop, hstays]

/-- Whatever a player is asked to do, in whatever order, it only moves forward, and all that
happens is what the direction that leads furthest makes happen: the same calls in the same
order, to the same live styles, records and tables.  Once it has been destroyed, nothing
happens any more. -/
theorem directAll_eq_furthest {n : Nat} {t : Theatre τ} {p : Player τ} (hp : t.player? n = some p)
    (directions : List Direction) :
    (∀ before after, directions = before ++ after →
      ∃ q q', (t.directAll n before).1.player? n = some q
        ∧ (t.directAll n directions).1.player? n = some q' ∧ q.phase.rank ≤ q'.phase.rank)
    ∧ (∀ furthest ∈ directions, (∀ d ∈ directions, d.goal.rank ≤ furthest.goal.rank) →
      t.directAll n directions = t.direct n furthest)
    ∧ (.destroy ∈ directions →
      (∀ more, (t.directAll n directions).1.directAll n more = ((t.directAll n directions).1, []))
      ∧ (t.directAll n directions).1.drop n =
        ({ (t.directAll n directions).1 with
            players := (t.directAll n directions).1.players.set n none }, [])) := by
  refine ⟨?forward, ?furthest, ?destroyed⟩
  case forward =>
    rintro before after rfl
    obtain ⟨q, hq, -⟩ := rank_directAll hp before
    obtain ⟨q', hq', hle⟩ := rank_directAll hq after
    rw [directAll_append]
    exact ⟨q, q', hq, hq', hle⟩
  case furthest =>
    intro furthest hmem h
    rw [directAll_eq_take hmem h, direct_eq_take]
  case destroyed =>
    intro hmem
    -- nothing leads further than being destroyed
    have hall : ∀ ds : List Direction, ∀ d ∈ ds, d.goal.rank ≤ Direction.destroy.goal.rank :=
      fun _ d _ => Phase.rank_le d.goal
    rw [directAll_eq_take hmem (hall directions)]
    exact ⟨fun more => directAll_of_passed (hall more) n t, drop_of_destroyed n t⟩

/-- A player that is asked to start again after it has finished, and to finish again after it
has been destroyed. -/
theorem directAll_back_and_forth :
    ((showing "display" "inline").addPlayer 0 ⟨5⟩
        (flip ("display", "block") ("display", "none"))).directAll 0
          [.start, .finish, .start, .destroy, .finish]
      = ((showing "display" "inline").addPlayer 0 ⟨5⟩
          (flip ("display", "block") ("display", "none"))).destroy 0 :=
  (directAll_eq_furthest (Option.some_get (by decide)).symm _).2.1 .destroy (by decide) (by decide)

end Theatre

end Choreography
