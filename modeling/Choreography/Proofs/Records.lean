/-
Choreography/Proofs/Records.lean

Whose the records are.

A table leads an element to the record that its players fill.  When one of them is destroyed
the table forgets the record, though others may still hold it, and the next player is given a
new one.  However players are made, called and let go, two things remain true
(`Theatre.InOrder`):

* the record of a player remembers all the start styles that the player has set, whether the
  table still leads to it or not;
* a record that the table leads to is held by players of its element only, none of which is
  destroyed, and what it remembers are start styles that some of them has set.

The run lemma is `Fresh.inOrder`, over any list of cues.
-/
import Choreography.Proofs.Theatre

namespace Choreography

variable {τ : Type}

namespace Theatre

variable {table n r : Nat} {t : Theatre τ} {p : Player τ} {e : ElementId}

/-! ### Theatres in order -/

/-- The record of a player remembers the start styles that it has set. -/
structure Engaged (table : Nat) (t : Theatre τ) (p : Player τ) : Prop where
  table : p.table = table
  kept : p.record < t.records.length
  remembered : p.phase ≠ .pending → ∀ property ∈ p.startStyles.keys,
    ((t.record p.record).get? property).isSome

/-- A record is held by players of an element, and remembers what some of them have set. -/
structure Attached (t : Theatre τ) (e : ElementId) (r : Nat) : Prop where
  kept : r < t.records.length
  players : ∀ n p, t.player? n = some p → p.record = r → p.element = e ∧ p.phase ≠ .destroyed
  origin : ∀ property, ((t.record r).get? property).isSome →
    ∃ n p, t.player? n = some p ∧ p.record = r ∧ p.phase ≠ .pending ∧
      property ∈ p.startStyles.keys

/-- The players of a theatre are those of one table, and their records are in order. -/
structure InOrder (table : Nat) (t : Theatre τ) : Prop where
  table_lt : table < t.tables.length
  engaged : ∀ n p, t.player? n = some p → Engaged table t p
  attached : ∀ e r, (t.table table).get? e = some r → Attached t e r
  distinct : ∀ e e' r, (t.table table).get? e = some r → (t.table table).get? e' = some r → e = e'

/-- What the record of an element remembers is what the players have set that hold it. -/
theorem InOrder.remembers_iff (h : InOrder table t) (hr : (t.table table).get? e = some r)
    (property : String) : ((t.record r).get? property).isSome ↔ ∃ n p, t.player? n = some p ∧
      p.record = r ∧ p.phase ≠ .pending ∧ property ∈ p.startStyles.keys := by
  constructor
  · exact (h.attached e r hr).origin property
  · rintro ⟨n, p, hp, rfl, hphase, hproperty⟩
    exact (h.engaged n p hp).remembered hphase property hproperty

/-- Records are kept, and what they remember is not forgotten. -/
theorem Engaged.mono {u : Theatre τ} (h : Engaged table t p)
    (hlength : t.records.length ≤ u.records.length)
    (hrecord : ∀ property, ((t.record p.record).get? property).isSome →
      ((u.record p.record).get? property).isSome) : Engaged table u p where
  table := h.table
  kept := Nat.lt_of_lt_of_le h.kept hlength
  remembered hphase property hproperty :=
    hrecord property (h.remembered hphase property hproperty)

/-- A record that has not changed stays with its element if those players stay that are not
destroyed, and if only players of the element come to hold it. -/
theorem Attached.mono {u : Theatre τ} (h : Attached t e r)
    (hlength : t.records.length ≤ u.records.length) (hrecord : u.record r = t.record r)
    (hstay : ∀ n p, t.player? n = some p → p.phase ≠ .destroyed → u.player? n = some p)
    (hholders : ∀ n p, u.player? n = some p → p.record = r →
      p.element = e ∧ p.phase ≠ .destroyed) : Attached u e r where
  kept := Nat.lt_of_lt_of_le h.kept hlength
  players := hholders
  origin property hproperty := by
    rw [hrecord] at hproperty
    obtain ⟨n, p, hp, hr, hrest⟩ := h.origin property hproperty
    exact ⟨n, p, hstay n p hp (h.players n p hp hr).2, hr, hrest⟩

/-! ### Steps -/

/-- Only its first step writes into the record of a player. -/
theorem record_step (t : Theatre τ) (n : Nat) (p : Player τ) (r : Nat) (property : String) :
    ((t.step n p).1.record r).get? property
      = if p.phase = .pending ∧ r = p.record ∧ p.record < t.records.length then
          ((t.record r).get? property).or
            ((p.startStyles.get? property).map fun _ => t.content p.element property)
        else (t.record r).get? property := by
  -- later steps make calls and touch no record
  by_cases hphase : p.phase = .pending
  · simp only [step, hphase, record_enterStarted, true_and]
  · rw [if_neg fun h => hphase h.1, record, records_step hphase, record]

theorem isSome_record_step (h : ((t.record r).get? property).isSome) (n : Nat) (p : Player τ) :
    (((t.step n p).1.record r).get? property).isSome := by
  rw [record_step]
  split
  · rw [Option.isSome_or, h, Bool.true_or]
  · exact h

/-- Only its last step takes a record out of the table. -/
theorem get?_table_step (h : InOrder table t) (hp : t.player? n = some p) (e : ElementId) :
    ((t.step n p).1.table table).get? e
      = if p.phase = .finished ∧ e = p.element then none else (t.table table).get? e := by
  have htables := (steps_step hp).tables
  -- the step after the end destroys the player, and erases the entry of its element
  by_cases hphase : p.phase = .finished
  · rw [if_pos hphase, (h.engaged n p hp).table] at htables
    have htable : (t.step n p).1.table table = (t.table table).erase p.element := by
      simp [Theatre.table, htables, List.getD_eq_getElem?_getD,
        List.getElem?_eq_getElem h.table_lt]
    rw [htable, OrderedMap.get?_erase]
    simp only [hphase, true_and]
  · rw [if_neg hphase] at htables
    rw [if_neg fun h => hphase h.1, Theatre.table, htables, Theatre.table]

/-- An entry that is there after a step was there before, and is not the one that was erased. -/
theorem get?_table_of_step (h : InOrder table t) (hp : t.player? n = some p)
    (hr : ((t.step n p).1.table table).get? e = some r) :
    (t.table table).get? e = some r ∧ (p.phase = .finished → e ≠ p.element) := by
  rw [get?_table_step h hp] at hr
  split at hr
  · cases hr
  · rename_i hkept
    exact ⟨hr, fun hphase he => hkept ⟨hphase, he⟩⟩

/-- The player that steps stays engaged. -/
theorem Engaged.next (h : InOrder table t) (hp : t.player? n = some p) :
    Engaged table (t.step n p).1 p.next := by
  obtain ⟨htable, hkept, hremembered⟩ := h.engaged n p hp
  refine ⟨?_, ?_, ?_⟩
  · rw [Player.table_next, htable]
  · rw [Player.record_next, (steps_step hp).records]
    exact hkept
  · intro _ property hproperty
    rw [Player.record_next]
    by_cases hfinished : p.phase = .finished
    · -- a destroyed player has no styles
      have hempty : p.next.startStyles = ∅ := by simp [Player.next, hfinished]
      rw [hempty] at hproperty
      cases hproperty
    · rw [(Player.styles_next hfinished).1] at hproperty
      by_cases hphase : p.phase = .pending
      · -- this is the step that writes
        have hvalue : (p.startStyles.get? property).isSome := by
          rw [OrderedMap.get?_isSome]
          exact OrderedMap.contains_iff_mem_keys.2 hproperty
        rw [record_step, if_pos ⟨hphase, rfl, hkept⟩]
        simp [hvalue]
      · exact isSome_record_step (hremembered hphase property hproperty) n p

/-- So do the others. -/
theorem Engaged.step (h : Engaged table t p) {m : Nat} {q : Player τ}
    (hq : t.player? m = some q) : Engaged table (t.step m q).1 p :=
  h.mono (Nat.le_of_eq (steps_step hq).records.symm) fun _ hproperty =>
    isSome_record_step hproperty m q

/-- A record to which the table still leads stays with its element. -/
theorem Attached.step (h : InOrder table t) (hp : t.player? n = some p)
    (hr : ((t.step n p).1.table table).get? e = some r) : Attached (t.step n p).1 e r := by
  obtain ⟨hold, hfinished⟩ := get?_table_of_step h hp hr
  obtain ⟨hkept, hplayers, horigin⟩ := h.attached e r hold
  have hsteps := steps_step hp
  -- if the player holds the record, this is not its last step
  have halive : p.record = r → p.phase ≠ .finished ∧ p.phase ≠ .destroyed := by
    intro hrecord
    obtain ⟨helement, hdestroyed⟩ := hplayers n p hp hrecord
    exact ⟨fun hphase => hfinished hphase helement.symm, hdestroyed⟩
  refine ⟨hsteps.records ▸ hkept, ?_, ?_⟩
  · -- nobody but the player itself is in another phase now
    intro m q hq hrecord
    rw [hsteps.player?] at hq
    split at hq
    · cases hq
      rw [Player.record_next] at hrecord
      obtain ⟨helement, -⟩ := hplayers n p hp hrecord
      obtain ⟨hnotFinished, hnotDestroyed⟩ := halive hrecord
      refine ⟨p.element_next.trans helement, fun hnext => ?_⟩
      have hrank := Player.rank_next hnotDestroyed
      rw [hnext] at hrank
      cases hphase : p.phase <;> simp_all [Phase.rank]
    · exact hplayers m q hq hrecord
  · intro property hproperty
    -- the player itself, in its next phase, or another one that has started before
    have hself : p.record = r → property ∈ p.startStyles.keys → ∃ m q,
        (t.step n p).1.player? m = some q ∧ q.record = r ∧ q.phase ≠ .pending ∧
          property ∈ q.startStyles.keys := by
      intro hrecord hmem
      refine ⟨n, p.next, player?_step hp, p.record_next.trans hrecord, p.phase_next_ne_pending, ?_⟩
      rw [(Player.styles_next (halive hrecord).1).1]
      exact hmem
    -- a property was remembered before, or the first step of the player has added it
    by_cases hknown : ((t.record r).get? property).isSome
    · obtain ⟨m, q, hq, hrecord, hphase, hmem⟩ := horigin property hknown
      by_cases hm : m = n
      · subst hm
        obtain rfl : q = p := Option.some_inj.1 (hq.symm.trans hp)
        exact hself hrecord hmem
      · refine ⟨m, q, ?_, hrecord, hphase, hmem⟩
        rw [hsteps.player?, if_neg hm]
        exact hq
    · rw [record_step] at hproperty
      split at hproperty
      · next hfirst =>
        refine hself hfirst.2.1.symm ?_
        rw [Option.isSome_or, Option.isSome_map, Bool.eq_false_iff.2 hknown, Bool.false_or,
          OrderedMap.get?_isSome] at hproperty
        exact OrderedMap.contains_iff_mem_keys.1 hproperty
      · exact absurd hproperty hknown

/-- A step of any player keeps a theatre in order. -/
theorem InOrder.step (h : InOrder table t) (hp : t.player? n = some p) :
    InOrder table (t.step n p).1 where
  table_lt := by
    have hlength : (t.step n p).1.tables.length = t.tables.length := by
      rw [(steps_step hp).tables]
      split
      · exact List.length_modify ..
      · rfl
    rw [hlength]
    exact h.table_lt
  engaged m q hq := by
    rw [(steps_step hp).player?] at hq
    split at hq
    · cases hq
      exact .next h hp
    · -- another player has not moved, and its record remembers what it did
      exact (h.engaged m q hq).step hp
  attached e r hr := .step h hp hr
  distinct e e' r hr hr' :=
    h.distinct e e' r (get?_table_of_step h hp hr).1 (get?_table_of_step h hp hr').1

theorem InOrder.take (h : InOrder table t) (goal : Phase) (n : Nat) :
    InOrder table (t.take goal n).1 :=
  take_induct (fun _ _ hp _ h => h.step hp) h

/-! ### Letting players go -/

/-- A player that is destroyed holds no record that the table leads to. -/
theorem InOrder.drop (h : InOrder table t) (n : Nat) : InOrder table (t.drop n).1 := by
  have hdestroy : InOrder table (t.destroy n).1 := h.take .destroyed n
  have hothers : ∀ m q, (t.drop n).1.player? m = some q → (t.destroy n).1.player? m = some q := by
    intro m q hq
    rw [player?_drop] at hq
    split at hq
    · cases hq
    · exact hq
  -- to let a player go is to destroy it first, so it held no record of the table by then
  have hgone : ∀ q, (t.destroy n).1.player? n = some q → q.phase = .destroyed := by
    intro q hq
    cases hp : t.player? n with
    | none =>
      rw [Theatre.destroy, take_of_none hp, hp] at hq
      cases hq
    | some p =>
      obtain ⟨q', hq', hrank⟩ := player?_take hp .destroyed
      obtain rfl : q' = q := Option.some_inj.1 (hq'.symm.trans hq)
      exact Phase.eq_destroyed hrank
  refine ⟨hdestroy.table_lt, ?_, ?_, hdestroy.distinct⟩
  · intro m q hq
    exact (hdestroy.engaged m q (hothers m q hq)).mono (Nat.le_refl _) fun _ hproperty => hproperty
  · intro e r hr
    have hattached := hdestroy.attached e r hr
    refine hattached.mono (Nat.le_refl _) rfl (fun m q hq hphase => ?_) fun m q hq =>
      hattached.players m q (hothers m q hq)
    have hm : m ≠ n := by
      rintro rfl
      exact hphase (hgone q hq)
    rw [player?_drop, if_neg hm]
    exact hq

/-! ### Making players -/

/-- Nobody holds a new record, and nothing is in it. -/
theorem InOrder.attached_recordFor (h : InOrder table t) (hk : (t.table table).get? e = none) :
    Attached (t.recordFor table e).2 e t.records.length := by
  obtain ⟨-, hplayers, hrecord⟩ := t.recordFor_keeps table e
  refine ⟨by simp [recordFor_of_new hk], fun n p hp hr => ?_, fun property hproperty => ?_⟩
  · rw [player?, hplayers] at hp
    have hlt := (h.engaged n p hp).kept
    rw [hr] at hlt
    exact absurd hlt (Nat.lt_irrefl _)
  · rw [hrecord] at hproperty
    simp [record] at hproperty

/-- Looking for the record of an element keeps a theatre in order. -/
theorem InOrder.recordFor (h : InOrder table t) (e : ElementId) :
    InOrder table (t.recordFor table e).2 := by
  -- a record is found, or a new one is added at the end
  cases hk : (t.table table).get? e with
  | some k =>
    rw [recordFor_of_known hk]
    exact h
  | none =>
    obtain ⟨-, hplayers, hrecord⟩ := t.recordFor_keeps table e
    have hplayer : (t.recordFor table e).2.player? = t.player? := by
      funext n
      rw [player?, hplayers, player?]
    have hlength := length_recordFor table e t
    have hget := get?_table_recordFor h.table_lt e
    have hnew : (t.recordFor table e).1 = t.records.length := by rw [recordFor_of_new hk]
    rw [hnew] at hget
    refine ⟨?_, ?_, ?_, ?_⟩
    · rw [recordFor_of_new hk]
      simpa using h.table_lt
    · intro n p hp
      rw [hplayer] at hp
      refine (h.engaged n p hp).mono hlength fun property hproperty => ?_
      rw [hrecord]
      exact hproperty
    · intro e' r hr
      rw [hget] at hr
      split at hr
      · next he =>
        cases hr
        rw [he]
        exact h.attached_recordFor hk
      · refine (h.attached e' r hr).mono hlength (hrecord r) ?_ ?_
        · rw [hplayer]
          exact fun n p hp _ => hp
        · rw [hplayer]
          exact (h.attached e' r hr).players
    · intro e₁ e₂ r hr₁ hr₂
      rw [hget] at hr₁ hr₂
      -- nothing else leads to the new record
      have hlt : ∀ e', (t.table table).get? e' = some t.records.length → False :=
        fun e' hr => Nat.lt_irrefl _ (h.attached e' _ hr).kept
      split at hr₁
      · cases hr₁
        split at hr₂
        · next h₁ h₂ => rw [h₁, h₂]
        · exact (hlt _ hr₂).elim
      · split at hr₂
        · cases hr₂
          exact (hlt _ hr₁).elim
        · exact h.distinct e₁ e₂ r hr₁ hr₂

/-- A player may join that holds the record to which the table leads its element. -/
theorem InOrder.append (h : InOrder table t) {p? : Option (Player τ)}
    (hjoin : ∀ p, p? = some p → p.phase = .pending ∧ p.table = table ∧
      (t.table table).get? p.element = some p.record) :
    InOrder table { t with players := t.players ++ [p?] } := by
  refine ⟨h.table_lt, ?_, ?_, h.distinct⟩
  · intro n p hp
    rw [player?_append] at hp
    split at hp
    · obtain ⟨hpending, htable, hr⟩ := hjoin p hp
      exact ⟨htable, (h.attached _ _ hr).kept, fun hphase => absurd hpending hphase⟩
    · -- the players before it see the same records
      exact (h.engaged n p hp).mono (Nat.le_refl _) fun _ hproperty => hproperty
  · intro e r hr
    refine (h.attached e r hr).mono (Nat.le_refl _) rfl (fun n p hp _ => ?_) fun n p hp hrecord => ?_
    · rw [player?_append, if_neg (Nat.ne_of_lt (lt_of_player? hp))]
      exact hp
    · rw [player?_append] at hp
      split at hp
      · obtain ⟨hpending, -, hp'⟩ := hjoin p hp
        rw [hrecord] at hp'
        refine ⟨h.distinct _ _ r hp' hr, ?_⟩
        rw [hpending]
        exact fun hphase => by cases hphase
      · exact (h.attached e r hr).players n p hp hrecord

/-- So does making a player. -/
theorem InOrder.addPlayer (h : InOrder table t) (e : ElementId) (keyframes : List (Keyframe τ)) :
    InOrder table (t.addPlayer table e keyframes) := by
  rw [addPlayer_eq]
  -- without anything to flip nobody joins, but a number is used up
  cases hnew : t.newPlayer table e keyframes with
  | none => exact h.append fun p hp => by cases hp
  | some p =>
    rw [← (t.recordFor_keeps table e).2.1]
    refine (h.recordFor e).append fun q hq => ?_
    cases hq
    obtain rfl := newPlayer_eq_some hnew
    refine ⟨rfl, rfl, ?_⟩
    rw [get?_table_recordFor h.table_lt, if_pos rfl]

/-! ### Cues -/

theorem InOrder.cue (h : InOrder table t) (c : Cue τ) : InOrder table (t.cue table c) := by
  cases c with
  | add e keyframes => exact h.addPlayer e keyframes
  | start n => exact h.take .started n
  | finish n => exact h.take .finished n
  | destroy n => exact h.take .destroyed n
  | drop n => exact h.drop n

theorem InOrder.cueAll (h : InOrder table t) (cues : List (Cue τ)) :
    InOrder table (t.cueAll table cues) :=
  cueAll_induct (fun _ hu c _ => hu.cue c) h

/-- Nobody has been asked for anything on the table yet. -/
structure Fresh (table : Nat) (t : Theatre τ) : Prop where
  table_lt : table < t.tables.length
  players : t.players = []
  entries : ∀ e, t.contains table e = false

/-- A fresh table is in order, and stays so whatever is asked for. -/
theorem Fresh.inOrder (h : Fresh table t) (cues : List (Cue τ)) :
    InOrder table (t.cueAll table cues) := by
  have hnobody : ∀ n p, t.player? n ≠ some p := by
    intro n p hp
    rw [player?, h.players] at hp
    cases hp
  refine InOrder.cueAll ⟨h.table_lt, fun n p hp => absurd hp (hnobody n p), ?_, ?_⟩ cues
  · intro e r hr
    rw [get?_table_of_not_contains (h.entries e)] at hr
    cases hr
  · intro e e' r hr
    rw [get?_table_of_not_contains (h.entries e)] at hr
    cases hr

end Theatre

end Choreography
