/-
Choreography/Proofs/Interference.lean

What the end of one player does to what another one has set.

A player that is finished or destroyed restores its record, and the record is not its own: it
remembers whatever any of the players has set that hold it.  A property that the player
itself does not set is therefore put back to what the record remembers of it, or left alone
if the record remembers nothing of it (`content_of_ends`).  The first is what happens to every
start style of a player with the same record.

The step lemma is `content_step_of_spares`; `content_take_of_spares` goes through all the
steps of a call.
-/
import Choreography.Proofs.Records
import Choreography.Proofs.Restoration

namespace Choreography

variable {τ : Type}

/-- A player sets a property neither at its start nor at its end. -/
structure Player.Spares (p : Player τ) (property : String) : Prop where
  starts : property ∉ p.startStyles.keys
  ends : property ∉ p.endStyles.keys

/-- A player spares a property in its next phase, too. -/
theorem Player.Spares.next {p : Player τ} {property : String} (h : p.Spares property) :
    p.next.Spares property := by
  by_cases hfinished : p.phase = .finished
  · have hnext : p.next = { p with phase := .destroyed, startStyles := ∅, endStyles := ∅ } := by
      simp [Player.next, hfinished]
    rw [hnext]
    exact ⟨List.not_mem_nil, List.not_mem_nil⟩
  · obtain ⟨hstarts, hends⟩ := Player.styles_next hfinished
    refine ⟨?_, ?_⟩
    · rw [hstarts]
      exact h.starts
    · rw [hends]
      exact h.ends

namespace Theatre

variable {n : Nat} {t : Theatre τ} {p : Player τ} {property : String}

/-! ### Steps -/

/-- A step from the start of a player on restores its record, whatever the player sets. -/
theorem content_step_of_spares (h : p.Spares property) (n : Nat) (t : Theatre τ) :
    (t.step n p).1.content p.element property
      = if p.phase = .started ∨ p.phase = .finished then
          ((t.record p.record).get? property).getD (t.content p.element property)
        else t.content p.element property := by
  have hstart : p.startStyles.get? property = none := OrderedMap.get?_eq_none_iff.2 h.starts
  have hend : p.endStyles.get? property = none := OrderedMap.get?_eq_none_iff.2 h.ends
  -- one case for each phase to step from; its own styles do not count for the property
  cases hphase : p.phase with
  | pending => simp [step, hphase, content_enterStarted, hstart]
  | started => simp [step, hphase, content_enterFinished, hend]
  | finished => simp [step, hphase, content_enterDestroyed, hstart, hend]
  | destroyed => simp [step, hphase]

/-- What is remembered of the property does not change. -/
theorem record_step_of_spares (h : p.Spares property) (n : Nat) (t : Theatre τ) :
    ((t.step n p).1.record p.record).get? property = (t.record p.record).get? property := by
  have hstart : p.startStyles.get? property = none := OrderedMap.get?_eq_none_iff.2 h.starts
  rw [record_step]
  split
  · rw [hstart, Option.map_none, Option.or_none]
  · rfl

/-! ### Calls -/

/-- The state of a player on its way from a theatre `t`.  In between, the property may or may
not have been restored already; restored now, it is the same. -/
structure Passes (t : Theatre τ) (n : Nat) (p : Player τ) (property : String) (u : Theatre τ)
    (q : Player τ) : Prop where
  player : u.player? n = some q
  spares : q.Spares property
  element : q.element = p.element
  record : q.record = p.record
  remembered : (u.record p.record).get? property = (t.record p.record).get? property
  restored : ((t.record p.record).get? property).getD (u.content p.element property)
    = ((t.record p.record).get? property).getD (t.content p.element property)

theorem Passes.content_step {u : Theatre τ} {q : Player τ} (h : Passes t n p property u q) :
    (u.step n q).1.content p.element property
      = if q.phase = .started ∨ q.phase = .finished then
          ((t.record p.record).get? property).getD (t.content p.element property)
        else u.content p.element property := by
  have hcontent := content_step_of_spares h.spares n u
  rw [h.record, h.remembered, h.element, h.restored] at hcontent
  exact hcontent

theorem Passes.step {u : Theatre τ} {q : Player τ} (h : Passes t n p property u q) :
    Passes t n p property (u.step n q).1 q.next := by
  have hrecord := record_step_of_spares h.spares n u
  rw [h.record, h.remembered] at hrecord
  refine ⟨player?_step h.player, h.spares.next, q.element_next.trans h.element,
    q.record_next.trans h.record, hrecord, ?_⟩
  rw [h.content_step]
  -- put back twice, the property is as if it had been put back once
  split
  · cases (t.record p.record).get? property <;> rfl
  · exact h.restored

/-- Taken to its end or destroyed, a player restores the record that it holds, unless it is
there already. -/
theorem content_take_of_spares (hp : t.player? n = some p) (h : p.Spares property) {goal : Phase}
    (hgoal : goal = .finished ∨ goal = .destroyed) :
    (t.take goal n).1.content p.element property
      = if p.phase.rank < goal.rank then
          ((t.record p.record).get? property).getD (t.content p.element property)
        else t.content p.element property := by
  by_cases hlt : p.phase.rank < goal.rank
  · obtain ⟨u, q, ⟨q', hpasses⟩, hq, hrank, heq⟩ := take_last
      (P := fun u => ∃ q, Passes t n p property u q)
      (fun u q hq _ ⟨q', hpasses⟩ => by
        obtain rfl : q' = q := Option.some_inj.1 (hpasses.player.symm.trans hq)
        exact ⟨q'.next, hpasses.step⟩)
      ⟨p, hp, h, rfl, rfl, rfl, rfl⟩ hp hlt
    -- the steps before the last one have spared the property, or put it back already
    obtain rfl : q' = q := Option.some_inj.1 (hpasses.player.symm.trans hq)
    -- the last step is one of those that restore the record
    have hlast : q'.phase = .started ∨ q'.phase = .finished := by
      rcases hgoal with rfl | rfl <;> cases hphase : q'.phase <;> simp_all [Phase.rank]
    rw [if_pos hlt, heq, hpasses.content_step, if_pos hlast]
  · rw [if_neg hlt, take_of_reached hp (Nat.not_lt.1 hlt)]

/-! ### Players side by side -/

/-- A cue takes a player to its end, or destroys it. -/
def Cue.Ends (n : Nat) (goal : Phase) (c : Cue τ) : Prop :=
  c = .finish n ∧ goal = .finished ∨ (c = .destroy n ∨ c = .drop n) ∧ goal = .destroyed

theorem Cue.Ends.content_cue {goal : Phase} {c : Cue τ} (h : c.Ends n goal) (table : Nat)
    (t : Theatre τ) : (t.cue table c).content = (t.take goal n).1.content := by
  rcases h with ⟨rfl, rfl⟩ | ⟨rfl | rfl, rfl⟩ <;> rfl

/-- **What the end of a player does to the start styles of others**: if the call takes the
player on, a property that it does not set itself is put back to what its record remembers of
it, which is so for every property that a player with the same record has set; otherwise the
property stays as it is. -/
theorem content_of_ends {table : Nat} (fresh : Fresh table t) (cues : List (Cue τ)) {m : Nat}
    {q : Player τ} {goal : Phase} {c : Cue τ} (hc : c.Ends n goal)
    (hp : (t.cueAll table cues).player? n = some p)
    (hq : (t.cueAll table cues).player? m = some q) (helement : q.element = p.element)
    (hphase : q.phase = .started) (hset : property ∈ q.startStyles.keys)
    (hspares : p.Spares property) :
    ((t.cueAll table cues).cue table c).content q.element property
        = (if p.phase.rank < goal.rank then
            (((t.cueAll table cues).record p.record).get? property).getD
              ((t.cueAll table cues).content q.element property)
          else (t.cueAll table cues).content q.element property) ∧
      (q.record = p.record →
        (((t.cueAll table cues).record p.record).get? property).isSome) := by
  have hgoal : goal = .finished ∨ goal = .destroyed := by
    rcases hc with ⟨-, rfl⟩ | ⟨-, rfl⟩
    · exact .inl rfl
    · exact .inr rfl
  have hstarted : q.phase ≠ .pending := by
    rw [hphase]
    exact fun hpending => by cases hpending
  -- the second part is the invariant of tables in order
  refine ⟨?_, fun hrecord => ?_⟩
  · rw [hc.content_cue, helement]
    exact content_take_of_spares hp hspares hgoal
  · rw [← hrecord]
    exact ((fresh.inOrder cues).engaged m q hq).remembered hstarted property hset

/-- Two players that share a record: the end of the first one takes away what the second one
has set. -/
theorem disturbed_shared :
    let u := (showing "display" "inline").cueAll 0
      [.add ⟨5⟩ (flip ("display", "block") ("display", "none")),
        .add ⟨5⟩ (flip ("position", "absolute") ("position", "fixed")), .start 0, .start 1]
    ∃ p q, u.player? 0 = some p ∧ u.player? 1 = some q ∧ q.element = p.element ∧
      q.phase = .started ∧ "position" ∈ q.startStyles.keys ∧ p.Spares "position" ∧
        (u.cue 0 (.finish 0)).content q.element "position" ≠ u.content q.element "position" := by
  intro u
  let p := (u.player? 0).get (by decide +kernel)
  let q := (u.player? 1).get (by decide +kernel)
  have hspares : p.Spares "position" := ⟨by decide +kernel, by decide +kernel⟩
  have hp : u.player? 0 = some p := (Option.some_get _).symm
  have hq : u.player? 1 = some q := (Option.some_get _).symm
  exact ⟨p, q, hp, hq, by decide +kernel, by decide +kernel, by decide +kernel, hspares,
    by decide +kernel⟩

/-- One of three players is destroyed before the last one is made, so that the other two have
different records: the end of the first one leaves alone what the last one has set. -/
theorem content_of_ends_apart :
    let u := (showing "display" "inline").cueAll 0
      [.add ⟨5⟩ (flip ("display", "block") ("display", "none")),
        .add ⟨5⟩ (flip ("display", "grid") ("display", "flex")), .start 0, .destroy 1,
        .add ⟨5⟩ (flip ("position", "absolute") ("position", "fixed")), .start 2]
    (u.cue 0 (.finish 0)).content ⟨5⟩ "position" = some (.literal (.text "absolute")) := by
  intro u
  have fresh : Fresh 0 (showing "display" "inline") := ⟨Nat.zero_lt_one, rfl, fun _ => rfl⟩
  let p := (u.player? 0).get (by decide +kernel)
  let q := (u.player? 2).get (by decide +kernel)
  have hspares : p.Spares "position" := ⟨by decide +kernel, by decide +kernel⟩
  have hp : u.player? 0 = some p := (Option.some_get _).symm
  have hq : u.player? 2 = some q := (Option.some_get _).symm
  obtain ⟨hcontent, -⟩ := content_of_ends fresh _ (.inl ⟨rfl, rfl⟩) hp hq (by decide +kernel)
    (by decide +kernel) (by decide +kernel) hspares
  refine hcontent.trans ?_
  decide +kernel

end Theatre

end Choreography
