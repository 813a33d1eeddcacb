/-
Choreography/Proofs/Restoration.lean

What players leave behind.

A player remembers what its start styles overwrite, and nothing of its end styles.  Alone
on its table it therefore shows a known content in every phase (`shown`), and when it is
destroyed everything is as before but for the properties that only its end styles set:
these are gone (`restores_iff`).

Players of one element that are made before the first of them is destroyed share a record.
Where each of them sets at the end only what it sets at the start, the record has all that
any of them changed, and whichever of them is destroyed restores everything
(`restores_together`).
-/
import Choreography.Proofs.Theatre

namespace Choreography

variable {τ : Type}

namespace Theatre

/-! ### A player alone -/

/-- What a player that is alone shows in a phase. -/
def shown (e : ElementId) (startStyles endStyles : StyleMap τ)
    (before : ElementId → String → Option (StyleValue τ)) :
    Phase → ElementId → String → Option (StyleValue τ)
  | .pending => before
  | .started => assigned e (fun property => (startStyles.get? property).map some) before
  | .finished => assigned e (fun property => (endStyles.get? property).map some) before
  | .destroyed => assigned e
      (fun property => match startStyles.get? property, endStyles.get? property with
        | none, some _ => some none
        | _, _ => none) before

/-- The state of a player that has always been alone. -/
structure Alone (e : ElementId) (startStyles endStyles : StyleMap τ)
    (before : ElementId → String → Option (StyleValue τ)) (n : Nat) (p : Player τ)
    (t : Theatre τ) : Prop where
  player : t.player? n = some p
  element : p.element = e
  kept : p.record < t.records.length
  styles : p.phase ≠ .destroyed → p.startStyles = startStyles ∧ p.endStyles = endStyles
  record : ∀ property, (t.record p.record).get? property
    = if p.phase = .pending then none
      else (startStyles.get? property).map fun _ => before e property
  content : t.content = shown e startStyles endStyles before p.phase

variable {e : ElementId} {startStyles endStyles : StyleMap τ}
  {before : ElementId → String → Option (StyleValue τ)}

/-- A player that steps is alone still, and shows what its next phase shows. -/
theorem Alone.step {n : Nat} {p : Player τ} {t : Theatre τ}
    (h : Alone e startStyles endStyles before n p t) :
    Alone e startStyles endStyles before n p.next (t.step n p).1 := by
  have hsteps := steps_step h.player
  have hplayer : (t.step n p).1.player? n = some p.next := by simpa using hsteps.player? n
  obtain ⟨player, rfl, kept, styles, record, content⟩ := h
  -- one case for each phase to step from
  cases hp : p.phase with
  | pending =>
    have hnext : p.next = { p with phase := .started } := by simp [Player.next, hp]
    obtain ⟨hstart, hend⟩ := styles (by simp [hp])
    rw [hnext] at hplayer ⊢
    refine ⟨hplayer, rfl, hsteps.records ▸ kept, fun _ => ⟨hstart, hend⟩, fun property => ?_, ?_⟩
    · simp only [Theatre.step, hp, record_enterStarted]
      simp [kept, record, hp, content, shown, hstart]
    · simp only [Theatre.step, hp, content_enterStarted, content, shown, hstart]
  | started =>
    have hnext : p.next = { p with phase := .finished } := by simp [Player.next, hp]
    obtain ⟨hstart, hend⟩ := styles (by simp [hp])
    rw [hnext] at hplayer ⊢
    refine ⟨hplayer, rfl, hsteps.records ▸ kept, fun _ => ⟨hstart, hend⟩, fun property => ?_, ?_⟩
    · simp only [Theatre.step, hp]
      exact (record property).trans (by simp [hp])
    · simp only [Theatre.step, hp, content_enterFinished, content, shown, hend, assigned_assigned]
      refine assigned_congr fun property => ?_
      -- what the start styles have changed is remembered
      rw [record property]
      cases endStyles.get? property <;> cases startStyles.get? property <;> simp [hp]
  | finished =>
    have hnext : p.next = { p with phase := .destroyed, startStyles := ∅, endStyles := ∅ } := by
      simp [Player.next, hp]
    obtain ⟨hstart, hend⟩ := styles (by simp [hp])
    rw [hnext] at hplayer ⊢
    refine ⟨hplayer, rfl, hsteps.records ▸ kept, fun h => absurd rfl h, fun property => ?_, ?_⟩
    · simp only [Theatre.step, hp]
      exact (record property).trans (by simp [hp])
    · simp only [Theatre.step, hp, content_enterDestroyed, content, shown, hstart, hend,
        assigned_assigned]
      refine assigned_congr fun property => ?_
      rw [record property]
      cases endStyles.get? property <;> cases startStyles.get? property <;> simp [hp]
  | destroyed =>
    have hnext : p.next = p := by simp [Player.next, hp]
    have hsame : (t.step n p).1 = t := by simp [Theatre.step, hp]
    rw [hnext, hsame]
    exact ⟨player, rfl, kept, styles, record, content⟩

/-- It may be taken to any phase. -/
theorem Alone.take {n : Nat} {p : Player τ} {t : Theatre τ} (goal : Phase)
    (h : Alone e startStyles endStyles before n p t) :
    ∃ q, Alone e startStyles endStyles before n q (t.take goal n).1 :=
  take_induct (P := fun t => ∃ q, Alone e startStyles endStyles before n q t)
    (fun t p hp _ ⟨q, hq⟩ => by
      obtain rfl : q = p := Option.some_inj.1 (hq.player.symm.trans hp)
      exact ⟨q.next, hq.step⟩)
    ⟨p, h⟩

/-- What a player leaves that has been alone. -/
theorem Alone.content_destroy {n : Nat} {p : Player τ} {t : Theatre τ}
    (h : Alone e startStyles endStyles before n p t) :
    (t.destroy n).1.content = shown e startStyles endStyles before .destroyed := by
  obtain ⟨q, hq⟩ := h.take .destroyed
  obtain ⟨q', hq', hrank⟩ := player?_take h.player .destroyed
  obtain rfl : q = q' := Option.some_inj.1 (hq.player.symm.trans hq')
  have hphase : q.phase = .destroyed := Phase.eq_destroyed hrank
  rw [← hphase]
  exact hq.content

/-- A player that is new on a table without a record for its element is alone. -/
theorem alone_addPlayer {table : Nat} {t : Theatre τ} (fresh : t.contains table e = false)
    {keyframes : List (Keyframe τ)} {p : Player τ}
    (h : t.newPlayer table e keyframes = some p) :
    Alone e (flippingAtStart keyframes) (flippingAtEnd keyframes) t.content t.players.length p
      (t.addPlayer table e keyframes) := by
  have hnew : (t.table table).get? e = none := get?_table_of_not_contains fresh
  have hplayer : (t.addPlayer table e keyframes).player? t.players.length = some p := by
    simp [player?_addPlayer, h]
  have hrecords : (t.addPlayer table e keyframes).records.length = t.records.length + 1 := by
    rw [addPlayer_eq, h, recordFor_of_new hnew]
    simp
  obtain rfl := newPlayer_eq_some h
  rw [recordFor_of_new hnew] at hplayer ⊢
  refine ⟨hplayer, rfl, by simp [hrecords], fun _ => ⟨rfl, rfl⟩, fun property => ?_, ?_⟩
  · rw [record_addPlayer]
    simp [Theatre.record]
  · exact content_addPlayer table e keyframes t

/-- A call on a player, other than letting it go. -/
def Cue.IsCall (n : Nat) (c : Cue τ) : Prop :=
  c = .start n ∨ c = .finish n ∨ c = .destroy n

theorem Cue.IsCall.cue {n : Nat} {c : Cue τ} (h : c.IsCall n) (table : Nat) (t : Theatre τ) :
    ∃ goal, t.cue table c = (t.take goal n).1 := by
  rcases h with rfl | rfl | rfl
  · exact ⟨.started, rfl⟩
  · exact ⟨.finished, rfl⟩
  · exact ⟨.destroyed, rfl⟩

theorem cueAll_of_none {table n : Nat} {t : Theatre τ} (h : t.player? n = none)
    {calls : List (Cue τ)} (hcalls : ∀ c ∈ calls, c.IsCall n) : t.cueAll table calls = t := by
  refine cueAll_induct (P := (· = t)) ?_ rfl
  rintro u rfl c hc
  obtain ⟨goal, hgoal⟩ := (hcalls c hc).cue table u
  rw [hgoal, take_of_none h]

/-- Whatever calls are made, the player is alone. -/
theorem Alone.cueAll (table : Nat) {n : Nat} {p : Player τ} {t : Theatre τ}
    (h : Alone e startStyles endStyles before n p t) {calls : List (Cue τ)}
    (hcalls : ∀ c ∈ calls, c.IsCall n) :
    ∃ q, Alone e startStyles endStyles before n q (t.cueAll table calls) := by
  refine cueAll_induct (P := fun u => ∃ q, Alone e startStyles endStyles before n q u) ?_ ⟨p, h⟩
  rintro u ⟨q, hq⟩ c hc
  obtain ⟨goal, hgoal⟩ := (hcalls c hc).cue table u
  rw [hgoal]
  exact hq.take goal

theorem flipping_of_newPlayer {table : Nat} {t : Theatre τ} {keyframes : List (Keyframe τ)}
    (h : t.newPlayer table e keyframes = none) :
    flippingAtStart keyframes = ∅ ∧ flippingAtEnd keyframes = ∅ := by
  unfold newPlayer at h
  split at h
  · next hempty =>
    obtain ⟨hstart, hend⟩ := Bool.and_eq_true_iff.1 hempty
    exact ⟨OrderedMap.ext (List.isEmpty_iff.1 hstart), OrderedMap.ext (List.isEmpty_iff.1 hend)⟩
  · cases h

/-- What the calls on one player leave when the last of them destroys it. -/
theorem content_alone {table : Nat} {t : Theatre τ} (fresh : t.contains table e = false)
    (keyframes : List (Keyframe τ)) {calls : List (Cue τ)} {last : Cue τ}
    (hcalls : ∀ c ∈ calls, c.IsCall t.players.length)
    (hlast : last = .destroy t.players.length ∨ last = .drop t.players.length) :
    (t.cueAll table (.add e keyframes :: calls ++ [last])).content
      = shown e (flippingAtStart keyframes) (flippingAtEnd keyframes) t.content .destroyed := by
  -- letting a player go destroys it first
  have hrun : (t.cueAll table (.add e keyframes :: calls ++ [last])).content
      = (((t.addPlayer table e keyframes).cueAll table calls).destroy
        t.players.length).1.content := by
    unfold Theatre.cueAll
    rw [List.foldl_append]
    rcases hlast with rfl | rfl <;> rfl
  rw [hrun]
  cases hnew : t.newPlayer table e keyframes with
  | some p =>
    obtain ⟨q, hq⟩ := (alone_addPlayer fresh hnew).cueAll table hcalls
    exact hq.content_destroy
  -- there is no player, so nothing is shown but what was there
  | none =>
    have hnone : (t.addPlayer table e keyframes).player? t.players.length = none := by
      simp [player?_addPlayer, hnew]
    rw [cueAll_of_none hnone hcalls, Theatre.destroy, take_of_none hnone, content_addPlayer]
    obtain ⟨hstart, hend⟩ := flipping_of_newPlayer hnew
    rw [hstart, hend]
    exact (Function.update_eq_self e t.content).symm

/-- **What a lone player restores**: whatever calls are made on it, when it is destroyed or
let go every element is as before it was made, if and only if nothing was set of the
properties that flip at its end only. -/
theorem restores_iff {table : Nat} {t : Theatre τ} (fresh : t.contains table e = false)
    (keyframes : List (Keyframe τ)) {calls : List (Cue τ)} {last : Cue τ}
    (hcalls : ∀ c ∈ calls, c.IsCall t.players.length)
    (hlast : last = .destroy t.players.length ∨ last = .drop t.players.length) :
    (t.cueAll table (.add e keyframes :: calls ++ [last])).content = t.content ↔
      ∀ property ∈ (flippingAtEnd keyframes).keys, property ∉ (flippingAtStart keyframes).keys →
        t.content e property = none := by
  rw [content_alone fresh keyframes hcalls hlast, shown, assigned_eq_self_iff]
  refine forall_congr' fun property => ?_
  rw [← OrderedMap.get?_eq_none_iff]
  have hmem : property ∈ (flippingAtEnd keyframes).keys
      ↔ (flippingAtEnd keyframes).get? property ≠ none := by
    rw [Ne, OrderedMap.get?_eq_none_iff, not_not]
  rw [hmem]
  cases (flippingAtStart keyframes).get? property <;>
    cases (flippingAtEnd keyframes).get? property <;> simp [eq_comm]

/-- A theatre in which nothing is set but one property of one element. -/
def showing (property value : String) : Theatre Nat :=
  { empty with live := .ofList [((⟨5⟩, property), .literal (.text value))] }

/-- Keyframes of which the first and the last set one property each. -/
def flip (first last : String × String) : List (Keyframe Nat) :=
  [⟨0, none, .ofList [(first.1, .literal (.text first.2))]⟩,
    ⟨1, none, .ofList [(last.1, .literal (.text last.2))]⟩]

/-- A property that flips at both ends is restored. -/
theorem restores_iff_bothEnds :
    ((showing "display" "inline").cueAll 0
      [.add ⟨5⟩ (flip ("display", "block") ("display", "none")), .start 0, .finish 0,
        .drop 0]).content = (showing "display" "inline").content := by
  have hcalls : ∀ c ∈ ([.start 0, .finish 0] : List (Cue Nat)),
      c.IsCall (showing "display" "inline").players.length := by
    simp [Cue.IsCall, showing, empty]
  exact (restores_iff (by decide) (flip ("display", "block") ("display", "none")) hcalls
    (.inr rfl)).2 (by decide)

/-- A property that flips at the end only is gone in the end: nothing remembers it. -/
theorem not_restored_endOnly :
    (showing "position" "relative").contains 0 ⟨5⟩ = false
      ∧ ((showing "position" "relative").newPlayer 0 ⟨5⟩
          (flip ("display", "block") ("position", "absolute"))).isSome
      ∧ ((showing "position" "relative").cueAll 0
          [.add ⟨5⟩ (flip ("display", "block") ("position", "absolute")),
            .destroy 0]).content ≠ (showing "position" "relative").content := by
  refine ⟨by decide, by decide, fun h => ?_⟩
  have hgone : ((showing "position" "relative").cueAll 0
      [.add ⟨5⟩ (flip ("display", "block") ("position", "absolute")),
        .destroy 0]).content ⟨5⟩ "position" = none := by decide
  rw [h] at hgone
  exact absurd hgone (by decide)

/-! ### Players together -/

/-- A player of a troupe: it has the record of the troupe, sets at the end only what it
sets at the start, and that is remembered from its start on. -/
structure Member (e : ElementId) (r : Nat) (p : Player τ) (t : Theatre τ) : Prop where
  element : p.element = e
  record : p.record = r
  kept : r < t.records.length
  covered : ∀ property, p.startStyles.get? property = none → p.endStyles.get? property = none
  started : p.phase ≠ .pending → ∀ property, (t.record r).get? property = none →
    p.startStyles.get? property = none

/-- The state of players that share a record: `before` is the content before the first of
them started, and `first` the number from which on players belong to the troupe. -/
structure Troupe (e : ElementId) (r first : Nat)
    (before : ElementId → String → Option (StyleValue τ)) (t : Theatre τ) : Prop where
  remembered : ∀ property value, (t.record r).get? property = some value →
    value = before e property
  untouched : ∀ property, (t.record r).get? property = none →
    t.content e property = before e property
  others : ∀ e' ≠ e, t.content e' = before e'
  players : ∀ n p, first ≤ n → t.player? n = some p → Member e r p t

variable {r first : Nat}

theorem Member.mono {p : Player τ} {t t' : Theatre τ} (h : Member e r p t)
    (hlength : t.records.length ≤ t'.records.length)
    (hrecord : ∀ property, (t'.record r).get? property = none →
      (t.record r).get? property = none) : Member e r p t' :=
  ⟨h.element, h.record, Nat.lt_of_lt_of_le h.kept hlength, h.covered,
    fun hp property hn => h.started hp property (hrecord property hn)⟩

/-- A step keeps a member if what it sets at its start is remembered. -/
theorem Member.next {p : Player τ} {t : Theatre τ} (h : Member e r p t)
    (hstarted : ∀ property, (t.record r).get? property = none →
      p.startStyles.get? property = none) : Member e r p.next t := by
  obtain ⟨element, record, kept, covered, -⟩ := h
  unfold Player.next
  split
  · exact ⟨element, record, kept, covered, fun _ => hstarted⟩
  · exact ⟨element, record, kept, covered, fun _ => hstarted⟩
  · -- a destroyed player has no styles any more
    exact ⟨element, record, kept, fun _ _ => rfl, fun _ _ _ => rfl⟩
  · exact ⟨element, record, kept, covered, fun _ => hstarted⟩

/-- The players after a step of one of them, when what is remembered stays remembered and
what the player sets at its start is. -/
theorem Troupe.players_step {n : Nat} {p : Player τ} {t : Theatre τ}
    (h : Troupe e r first before t) (hp : t.player? n = some p) (hn : first ≤ n)
    (hrecord : ∀ property, ((t.step n p).1.record r).get? property = none →
      (t.record r).get? property = none ∧ p.startStyles.get? property = none) :
    ∀ m q, first ≤ m → (t.step n p).1.player? m = some q → Member e r q (t.step n p).1 := by
  have hsteps := steps_step hp
  have hmono : ∀ q, Member e r q t → Member e r q (t.step n p).1 := fun q hq =>
    hq.mono (Nat.le_of_eq hsteps.records.symm) fun property hnone => (hrecord property hnone).1
  intro m q hm hq
  rw [hsteps.player? m] at hq
  split at hq
  · cases hq
    exact (hmono p (h.players n p hn hp)).next fun property hnone => (hrecord property hnone).2
  · exact hmono q (h.players m q hm hq)

theorem Troupe.start {n : Nat} {p : Player τ} {t : Theatre τ}
    (h : Troupe e r first before t) (hp : t.player? n = some p) (hn : first ≤ n)
    (hphase : p.phase = .pending) : Troupe e r first before (t.step n p).1 := by
  obtain ⟨element, record, kept, -, -⟩ := h.players n p hn hp
  have hrecord : ∀ property, ((t.step n p).1.record r).get? property
      = ((t.record r).get? property).or
        ((p.startStyles.get? property).map fun _ => t.content e property) := by
    intro property
    simp only [Theatre.step, hphase, record_enterStarted]
    simp [record, element, kept]
  have hcontent : (t.step n p).1.content
      = assigned e (fun property => (p.startStyles.get? property).map some) t.content := by
    simp only [Theatre.step, hphase, content_enterStarted, element]
  refine ⟨fun property value hvalue => ?_, fun property hnone => ?_, fun e' he' => ?_,
    h.players_step hp hn fun property hnone => ?_⟩
  · rw [hrecord property, Option.or_eq_some_iff] at hvalue
    rcases hvalue with hvalue | ⟨hnew, hvalue⟩
    · exact h.remembered property value hvalue
    · -- what is remembered only now has not been touched before
      obtain ⟨_, -, rfl⟩ := Option.map_eq_some_iff.1 hvalue
      exact h.untouched property hnew
  · rw [hrecord property, Option.or_eq_none_iff, Option.map_eq_none_iff] at hnone
    rw [hcontent, assigned_self, hnone.2]
    exact h.untouched property hnone.1
  · rw [hcontent, assigned_of_ne he']
    exact h.others e' he'
  · rw [hrecord property, Option.or_eq_none_iff, Option.map_eq_none_iff] at hnone
    exact hnone

/-- A step of a player that has started changes nothing but what is remembered. -/
theorem Troupe.later {n : Nat} {p : Player τ} {t : Theatre τ}
    (h : Troupe e r first before t) (hp : t.player? n = some p) (hn : first ≤ n)
    (hphase : p.phase ≠ .pending)
    (hcontent : ∃ values : String → Option (Option (StyleValue τ)),
      (t.step n p).1.content = assigned e values t.content ∧
        ∀ property, (t.record r).get? property = none → values property = none) :
    Troupe e r first before (t.step n p).1 := by
  obtain ⟨values, hvalues, hknown⟩ := hcontent
  have hrecord : (t.step n p).1.record r = t.record r := by
    rw [record, records_step hphase, record]
  refine ⟨fun property value hvalue => ?_, fun property hnone => ?_, fun e' he' => ?_,
    h.players_step hp hn fun property hnone => ?_⟩
  · exact h.remembered property value (hrecord ▸ hvalue)
  · rw [hrecord] at hnone
    rw [hvalues, assigned_self, hknown property hnone]
    exact h.untouched property hnone
  · rw [hvalues, assigned_of_ne he']
    exact h.others e' he'
  · rw [hrecord] at hnone
    exact ⟨hnone, (h.players n p hn hp).started hphase property hnone⟩

/-- At its end a member changes only what is remembered. -/
theorem content_finish_member {n : Nat} {p : Player τ} {t : Theatre τ} (h : Member e r p t)
    (hphase : p.phase = .started) :
    ∃ values : String → Option (Option (StyleValue τ)),
      (t.step n p).1.content = assigned e values t.content ∧
        ∀ property, (t.record r).get? property = none → values property = none := by
  refine ⟨fun property => ((p.endStyles.get? property).map some).or
    ((t.record r).get? property), ?_, fun property hnone => ?_⟩
  · simp only [Theatre.step, hphase, content_enterFinished, h.element, h.record,
      assigned_assigned]
  · have hstart := h.started (by simp [hphase]) property hnone
    simp [hnone, h.covered property hstart]

/-- When a member is destroyed, all that is remembered is put back. -/
theorem content_destroy_member {n : Nat} {p : Player τ} {t : Theatre τ} (h : Member e r p t)
    (hphase : p.phase = .finished) :
    (t.step n p).1.content = assigned e (t.record r).get? t.content := by
  simp only [Theatre.step, hphase, content_enterDestroyed, h.element, h.record,
    assigned_assigned]
  refine assigned_congr fun property => ?_
  -- what is not remembered was not set at the start, so it was not set at the end
  cases hr : (t.record r).get? property with
  | some value => rfl
  | none =>
    have hstart := h.started (by simp [hphase]) property hr
    simp [hstart, h.covered property hstart]

/-- A step of any member keeps the troupe. -/
theorem Troupe.step {n : Nat} {p : Player τ} {t : Theatre τ}
    (h : Troupe e r first before t) (hp : t.player? n = some p) (hn : first ≤ n) :
    Troupe e r first before (t.step n p).1 := by
  have hmember := h.players n p hn hp
  -- the first step remembers what it changes; later ones change only what is remembered
  cases hphase : p.phase with
  | pending => exact h.start hp hn hphase
  | started => exact h.later hp hn (by simp [hphase]) (content_finish_member hmember hphase)
  | finished =>
    exact h.later hp hn (by simp [hphase])
      ⟨_, content_destroy_member hmember hphase, fun _ hnone => hnone⟩
  | destroyed =>
    have hsame : (t.step n p).1 = t := by simp [Theatre.step, hphase]
    rw [hsame]
    exact h

/-- Whoever is destroyed restores everything. -/
theorem Troupe.content_destroyed {n : Nat} {p : Player τ} {t : Theatre τ}
    (h : Troupe e r first before t) (hp : t.player? n = some p) (hn : first ≤ n)
    (hphase : p.phase = .finished) : (t.step n p).1.content = before := by
  rw [content_destroy_member (h.players n p hn hp) hphase]
  funext e' property
  -- only the element of the troupe is concerned
  by_cases he : e' = e
  · subst he
    rw [assigned_self]
    cases hr : (t.record r).get? property with
    | some value => exact h.remembered property value hr
    | none => exact h.untouched property hr
  · rw [assigned_of_ne he, h.others e' he]

/-! ### Making the players -/

/-- As long as no player is destroyed, the table leads from the element to the record of
the troupe, which is the next one to be made if it is not there. -/
structure Opening (table : Nat) (e : ElementId) (r : Nat) (t : Theatre τ) : Prop where
  table_lt : table < t.tables.length
  known : ∀ k, (t.table table).get? e = some k → k = r ∧ r < t.records.length
  new : (t.table table).get? e = none → t.records.length = r

/-- The next player of the element gets the record of the troupe. -/
theorem Opening.recordFor {table : Nat} {t : Theatre τ} (h : Opening table e r t) :
    (t.recordFor table e).1 = r ∧ r < (t.recordFor table e).2.records.length
      ∧ Opening table e r (t.recordFor table e).2 := by
  -- the table knows the element, or a record is made for it
  cases hk : (t.table table).get? e with
  | some k =>
    obtain ⟨rfl, hlt⟩ := h.known k hk
    rw [recordFor_of_known hk]
    exact ⟨rfl, hlt, h⟩
  | none =>
    obtain rfl := h.new hk
    have hget := get?_table_recordFor h.table_lt e e
    rw [if_pos rfl] at hget
    rw [recordFor_of_new hk] at hget ⊢
    refine ⟨rfl, by simp, by simpa using h.table_lt, fun k hk' => ?_, fun hnone => ?_⟩
    · rw [hget, Option.some_inj] at hk'
      exact ⟨hk'.symm, by simp⟩
    · rw [hget] at hnone
      cases hnone

theorem Opening.step {table n : Nat} {p : Player τ} {t : Theatre τ} (h : Opening table e r t)
    (hp : t.player? n = some p) (hphase : p.phase ≠ .finished) :
    Opening table e r (t.step n p).1 := by
  have hsteps := steps_step hp
  have htables : (t.step n p).1.tables = t.tables := by rw [hsteps.tables, if_neg hphase]
  have htable : (t.step n p).1.table table = t.table table := by
    rw [Theatre.table, htables, Theatre.table]
  refine ⟨htables ▸ h.table_lt, fun k hk => ?_, fun hnone => ?_⟩
  · rw [hsteps.records]
    exact h.known k (htable ▸ hk)
  · rw [hsteps.records]
    exact h.new (htable ▸ hnone)

theorem Opening.addPlayer {table : Nat} {t : Theatre τ} (h : Opening table e r t)
    (keyframes : List (Keyframe τ)) : Opening table e r (t.addPlayer table e keyframes) := by
  rw [addPlayer_eq]
  split
  · exact ⟨h.recordFor.2.2.table_lt, h.recordFor.2.2.known, h.recordFor.2.2.new⟩
  · exact ⟨h.table_lt, h.known, h.new⟩

/-- A new player joins the troupe if it sets at the end only what it sets at the start. -/
theorem Troupe.addPlayer {table : Nat} {t : Theatre τ} (h : Troupe e r first before t)
    (hopening : Opening table e r t) {keyframes : List (Keyframe τ)}
    (covered : ∀ property ∈ (flippingAtEnd keyframes).keys,
      property ∈ (flippingAtStart keyframes).keys) :
    Troupe e r first before (t.addPlayer table e keyframes) := by
  have hrecord := record_addPlayer table e keyframes t r
  have hcontent := content_addPlayer table e keyframes t
  refine ⟨hrecord ▸ h.remembered, ?_, hcontent ▸ h.others, fun n p hn hp => ?_⟩
  · rw [hrecord, hcontent]
    exact h.untouched
  · rw [player?_addPlayer] at hp
    split at hp
    · have hrecords : (t.addPlayer table e keyframes).records
          = (t.recordFor table e).2.records := by
        rw [addPlayer_eq, hp]
        rfl
      have hlt := hopening.recordFor.2.1
      obtain rfl := newPlayer_eq_some hp
      refine ⟨rfl, hopening.recordFor.1, hrecords ▸ hlt, fun property hnone => ?_,
        fun h => absurd rfl h⟩
      rw [OrderedMap.get?_eq_none_iff] at hnone ⊢
      exact fun hmem => hnone (covered property hmem)
    · exact (h.players n p hn hp).mono (length_records_addPlayer table e keyframes t)
        fun property hnone => hrecord ▸ hnone

/-- A cue for a troupe of which nobody is destroyed yet: it makes a player that sets at the
end only what it sets at the start, or takes a player to its start or to its end. -/
def Cue.Opens (e : ElementId) (first : Nat) : Cue τ → Prop
  | .add e' keyframes => e' = e ∧ ∀ property ∈ (flippingAtEnd keyframes).keys,
      property ∈ (flippingAtStart keyframes).keys
  | .start n => first ≤ n
  | .finish n => first ≤ n
  | .destroy _ => False
  | .drop _ => False

/-- A cue for a troupe to which nobody comes any more. -/
def Cue.Plays (first : Nat) : Cue τ → Prop
  | .add _ _ => False
  | .start n => first ≤ n
  | .finish n => first ≤ n
  | .destroy n => first ≤ n
  | .drop n => first ≤ n

theorem Troupe.take {n : Nat} {t : Theatre τ} (h : Troupe e r first before t) (hn : first ≤ n)
    (goal : Phase) : Troupe e r first before (t.take goal n).1 :=
  take_induct (fun _ _ hp _ h => h.step hp hn) h

/-- While it opens, the troupe may grow. -/
theorem Troupe.opens {table : Nat} {t : Theatre τ} (h : Troupe e r first before t)
    (hopening : Opening table e r t) {c : Cue τ} (hc : c.Opens e first) :
    Troupe e r first before (t.cue table c) ∧ Opening table e r (t.cue table c) := by
  -- no step that is taken starts from the end, so nobody is destroyed
  have htake : ∀ goal : Phase, goal.rank < Phase.destroyed.rank → ∀ n, first ≤ n →
      Troupe e r first before (t.take goal n).1 ∧ Opening table e r (t.take goal n).1 := by
    intro goal hgoal n hn
    refine ⟨h.take hn goal, take_induct (fun u p hp hlt hu => hu.step hp fun hphase => ?_) hopening⟩
    rw [hphase] at hlt
    exact absurd hgoal (Nat.not_lt.2 hlt)
  cases c with
  | add e' keyframes =>
    obtain ⟨rfl, covered⟩ := hc
    exact ⟨h.addPlayer hopening covered, hopening.addPlayer keyframes⟩
  | start n => exact htake .started (by decide) n hc
  | finish n => exact htake .finished (by decide) n hc
  | destroy n => exact hc.elim
  | drop n => exact hc.elim

/-- While it plays, any member may go. -/
theorem Troupe.plays {table : Nat} {t : Theatre τ} (h : Troupe e r first before t) {c : Cue τ}
    (hc : c.Plays first) : Troupe e r first before (t.cue table c) := by
  cases c with
  | add e' keyframes => exact hc.elim
  | start n => exact h.take hc .started
  | finish n => exact h.take hc .finished
  | destroy n => exact h.take hc .destroyed
  | drop n =>
    -- letting a player go destroys it and forgets its handle
    have hdestroyed := h.take hc .destroyed
    refine ⟨hdestroyed.remembered, hdestroyed.untouched, hdestroyed.others, fun m p hm hp => ?_⟩
    change (t.drop n).1.player? m = some p at hp
    rw [player?_drop] at hp
    split at hp
    · cases hp
    · exact (hdestroyed.players m p hm hp).mono (Nat.le_refl _) fun _ hnone => hnone

theorem Troupe.opensAll {table : Nat} {t : Theatre τ} (h : Troupe e r first before t)
    (hopening : Opening table e r t) {cues : List (Cue τ)}
    (hcues : ∀ c ∈ cues, c.Opens e first) : Troupe e r first before (t.cueAll table cues) := by
  refine (cueAll_induct (P := fun u => Troupe e r first before u ∧ Opening table e r u) ?_
    ⟨h, hopening⟩).1
  rintro u ⟨hu, hopening⟩ c hc
  exact hu.opens hopening (hcues c hc)

theorem Troupe.playsAll (table : Nat) {t : Theatre τ} (h : Troupe e r first before t)
    {cues : List (Cue τ)} (hcues : ∀ c ∈ cues, c.Plays first) :
    Troupe e r first before (t.cueAll table cues) :=
  cueAll_induct (fun _ hu c hc => hu.plays (hcues c hc)) h

/-- Where the table has no record for the element, a troupe of nobody stands ready. -/
theorem troupe_start {table : Nat} {t : Theatre τ} (htable : table < t.tables.length)
    (fresh : t.contains table e = false) :
    Troupe e t.records.length t.players.length t.content t
      ∧ Opening table e t.records.length t := by
  have hnew : (t.table table).get? e = none := get?_table_of_not_contains fresh
  have hempty : t.record t.records.length = ∅ := by simp [record]
  refine ⟨⟨fun property value hvalue => ?_, fun _ _ => rfl, fun _ _ => rfl, fun n p hn hp => ?_⟩,
    ⟨htable, fun k hk => ?_, fun _ => rfl⟩⟩
  · rw [hempty] at hvalue
    cases hvalue
  · exact absurd (lt_of_player? hp) (Nat.not_lt.2 hn)
  · rw [hnew] at hk
    cases hk

/-- **Players of one element restore it together**: any number of players, made on one
table before the first of them is destroyed, each with end styles that it sets at the start
too; however their calls interleave, every element is as before whenever one of them has
just been destroyed, and so when the last one has. -/
theorem restores_together {table : Nat} {t : Theatre τ} (htable : table < t.tables.length)
    (fresh : t.contains table e = false) {opening playing : List (Cue τ)}
    (hopening : ∀ c ∈ opening, c.Opens e t.players.length)
    (hplaying : ∀ c ∈ playing, c.Plays t.players.length) {n : Nat} {p : Player τ}
    (hn : t.players.length ≤ n) (hp : (t.cueAll table (opening ++ playing)).player? n = some p)
    (alive : p.phase ≠ .destroyed) {last : Cue τ} (hlast : last = .destroy n ∨ last = .drop n) :
    (t.cueAll table (opening ++ playing ++ [last])).content = t.content := by
  obtain ⟨htroupe, hopen⟩ := troupe_start htable fresh
  have hrun : Troupe e t.records.length t.players.length t.content
      (t.cueAll table (opening ++ playing)) := by
    have h := (htroupe.opensAll hopen hopening).playsAll table hplaying
    rwa [cueAll, cueAll, ← List.foldl_append] at h
  have hcontent : (t.cueAll table (opening ++ playing ++ [last])).content
      = ((t.cueAll table (opening ++ playing)).destroy n).1.content := by
    rw [cueAll, List.foldl_append]
    rcases hlast with rfl | rfl <;> rfl
  have hlt : p.phase.rank < Phase.destroyed.rank := by
    cases hphase : p.phase <;> simp_all [Phase.rank]
  -- the last step of all is from the end to destruction
  obtain ⟨u, q, hu, hq, hrank, heq⟩ := take_last
    (fun _ _ hp _ h => Troupe.step h hp hn) hrun hp hlt
  have hphase : q.phase = .finished := by
    cases hphase : q.phase <;> simp_all [Phase.rank]
  rw [hcontent, Theatre.destroy, heq]
  exact hu.content_destroyed hq hn hphase

/-- Two players of one element, the second of which is started before the first has come
to its end, and destroyed after it. -/
theorem restores_together_crossing :
    ((showing "display" "inline").cueAll 0
      ([.add ⟨5⟩ (flip ("display", "block") ("display", "none")), .start 0,
          .add ⟨5⟩ (flip ("display", "grid") ("display", "flex")), .start 1]
        ++ [.finish 0, .destroy 0, .finish 1] ++ [.drop 1])).content
      = (showing "display" "inline").content := by
  have hopening : ∀ c ∈ ([.add ⟨5⟩ (flip ("display", "block") ("display", "none")), .start 0,
      .add ⟨5⟩ (flip ("display", "grid") ("display", "flex")), .start 1] : List (Cue Nat)),
      c.Opens ⟨5⟩ 0 := by
    simp only [List.forall_mem_cons]
    exact ⟨⟨rfl, by decide⟩, Nat.zero_le _, ⟨rfl, by decide⟩, Nat.zero_le _, List.forall_mem_nil _⟩
  have hplaying : ∀ c ∈ ([.finish 0, .destroy 0, .finish 1] : List (Cue Nat)), c.Plays 0 := by
    simp [Cue.Plays]
  exact restores_together (by decide) (by decide) hopening hplaying (by decide)
    (Option.some_get (by decide)).symm (by decide) (.inr rfl)

end Theatre

end Choreography
