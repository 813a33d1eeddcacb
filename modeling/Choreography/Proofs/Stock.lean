/-
Choreography/Proofs/Stock.lean

The style values in a score.

A score holds style values in many places: on keyframes, in wait for one, as what is known of
an element, and in the instructions that were placed.  `Score.Stocked P` says that all of them
have a property `P`.  No operation makes up a value but `auto`, so only what is written has to
be looked at (`Change.Supplies`), and what is in the instructions in the end was in the score
(`Score.Stocked.instruction`).
-/
import Choreography.Proofs.Finish
import Choreography.Proofs.Gather

namespace Choreography

variable {τ κ α : Type}

/-! ### Maps -/

namespace OrderedMap

/-- All values of a map have a property. -/
def AllValues (P : α → Prop) (m : OrderedMap κ α) : Prop := ∀ entry ∈ m.entries, P entry.2

variable {P Q : α → Prop} {m : OrderedMap κ α}

@[simp] theorem allValues_empty : (∅ : OrderedMap κ α).AllValues P := nofun

theorem AllValues.mono (h : m.AllValues P) (himp : ∀ a, P a → Q a) : m.AllValues Q :=
  fun entry hentry => himp _ (h entry hentry)

variable [DecidableEq κ]

/-- An entry of a map is the one that was inserted, or was there before. -/
theorem mem_entries_insert {key : κ} {value : α} {entry : κ × α}
    (h : entry ∈ (m.insert key value).entries) : entry = (key, value) ∨ entry ∈ m.entries := by
  obtain ⟨entries, nodup⟩ := m
  change entry ∈ insertEntry key value entries at h
  show _ ∨ entry ∈ entries
  -- the invariant of the map would stand in the way of the induction on its entries
  clear nodup
  induction entries with
  | nil => exact .inl (List.mem_singleton.1 h)
  | cons first rest ih =>
    unfold insertEntry at h
    split at h
    · exact (List.mem_cons.1 h).imp_right (List.mem_cons_of_mem _)
    · rcases List.mem_cons.1 h with rfl | h
      · exact .inr List.mem_cons_self
      · exact (ih h).imp_right (List.mem_cons_of_mem _)

/-- A map keeps the property if the inserted value has it. -/
theorem AllValues.insert (h : m.AllValues P) (key : κ) {value : α} (hvalue : P value) :
    (m.insert key value).AllValues P := by
  intro entry hentry
  rcases mem_entries_insert hentry with rfl | hentry
  · exact hvalue
  · exact h entry hentry

theorem AllValues.insertAll (h : m.AllValues P) {entries : List (κ × α)}
    (hentries : ∀ entry ∈ entries, P entry.2) : (m.insertAll entries).AllValues P := by
  induction entries generalizing m with
  | nil => exact h
  | cons entry rest ih =>
    rw [List.forall_mem_cons] at hentries
    exact ih (h.insert entry.1 hentries.1) hentries.2

theorem AllValues.fill (h : m.AllValues P) {entries : List (κ × α)}
    (hentries : ∀ entry ∈ entries, P entry.2) : (m.fill entries).AllValues P := by
  induction entries generalizing m with
  | nil => exact h
  | cons entry rest ih =>
    rw [List.forall_mem_cons] at hentries
    refine ih (m := if m.contains entry.1 then m else m.insert entry.1 entry.2) ?_ hentries.2
    split
    · exact h
    · exact h.insert entry.1 hentries.1

theorem AllValues.get? (h : m.AllValues P) {key : κ} {value : α} (hget : m.get? key = some value) :
    P value := by
  obtain ⟨entry, hentry, rfl⟩ := Option.map_eq_some_iff.1 hget
  exact h entry (List.mem_of_find?_eq_some hentry)

/-- What is found has the property, and so does a fallback. -/
theorem AllValues.getD (h : m.AllValues P) (key : κ) {fallback : α} (hfallback : P fallback) :
    P ((m.get? key).getD fallback) := by
  cases hget : m.get? key with
  | none => exact hfallback
  | some value => exact h.get? hget

end OrderedMap

/-! ### Timelines -/

/-- All style values of a timeline have a property. -/
structure Timeline.Stocked (P : StyleValue τ → Prop) (t : Timeline τ) : Prop where
  keyframes : ∀ k ∈ t.keyframes, k.styles.AllValues P
  own : ∀ m, t.own = some m → m.AllValues P
  pending : t.pending.AllValues P
  backfill : t.backfill.AllValues P
  summary : t.summary.AllValues fun written => P written.value

namespace Timeline

variable {P Q : StyleValue τ → Prop} {t : Timeline τ}

theorem Stocked.mono (h : t.Stocked P) (himp : ∀ v, P v → Q v) : t.Stocked Q where
  keyframes k hk := (h.keyframes k hk).mono himp
  own m hm := (h.own m hm).mono himp
  pending := h.pending.mono himp
  backfill := h.backfill.mono himp
  summary := h.summary.mono fun _ => himp _

/-- Whatever the keyframes show was on a keyframe. -/
theorem Stocked.of_keyframes (h : t.Stocked P) {keyframes : List (TimedKeyframe τ)}
    (hk : ∀ k ∈ keyframes, k.styles.AllValues P) :
    ({ t with keyframes := keyframes } : Timeline τ).Stocked P :=
  ⟨hk, h.own, h.pending, h.backfill, h.summary⟩

/-- One keyframe is changed, and its values keep the property. -/
theorem Stocked.modify (h : t.Stocked P) (i : Nat) {f : TimedKeyframe τ → TimedKeyframe τ}
    (hf : ∀ k, k.styles.AllValues P → (f k).styles.AllValues P) :
    ∀ k ∈ t.keyframes.modify i f, k.styles.AllValues P := by
  intro k hk
  rcases Scene.mem_modify hk with hk | ⟨k', hk', rfl⟩
  · exact h.keyframes k hk
  · exact hf k' (h.keyframes k' hk')

theorem Stocked.easePrevious (h : t.Stocked P) (easing : Option String) :
    (t.easePrevious easing).Stocked P := by
  unfold Timeline.easePrevious
  split
  · exact h.of_keyframes (h.modify _ fun _ hk => hk)
  · exact h

variable [Quantity τ]

/-- A new timeline has only the values that it has been given a memory of. -/
theorem stocked_begin (lineage : Nat) (element : ElementId) (start : τ)
    {own : Option (StyleMap τ)} (hown : ∀ m, own = some m → m.AllValues P) :
    (begin lineage element start own).Stocked P where
  keyframes k hk := by
    rw [List.mem_singleton.1 hk]
    exact OrderedMap.allValues_empty
  own := hown
  pending := OrderedMap.allValues_empty
  backfill := OrderedMap.allValues_empty
  summary := OrderedMap.allValues_empty

/-- A new keyframe is empty. -/
theorem Stocked.loadKeyframe (h : t.Stocked P) (time : τ) :
    { t with duration := time }.loadKeyframe.Stocked P := by
  simp only [Timeline.loadKeyframe]
  split
  · exact ⟨h.keyframes, h.own, h.pending, h.backfill, h.summary⟩
  · refine ⟨fun k hk => ?_, h.own, h.pending, h.backfill, h.summary⟩
    -- the keyframe comes last, behind those that were there
    rcases List.mem_append.1 hk with hk | hk
    · exact h.keyframes k hk
    · rw [List.mem_singleton.1 hk]
      exact OrderedMap.allValues_empty

end Timeline

/-! ### Scenes -/

/-- All style values of a scene have a property. -/
structure Scene.Stocked (P : StyleValue τ → Prop) (s : Scene τ) : Prop where
  timeline : s.timeline.Stocked P
  shared : s.shared.AllValues P

/-- What a change writes where `shared` is known has a property. -/
def Change.Supplies [Quantity τ] (P : StyleValue τ → Prop) (shared : StyleMap τ) :
    Change τ → Prop
  | .write entries _ params =>
    ∀ entry ∈ (Scene.flatten shared entries).entries, P (entry.2.interpolate params).1
  | _ => True

namespace Scene

variable {P : StyleValue τ → Prop} {s : Scene τ}

/-- What is known of an element is held by the timeline or shared. -/
theorem Stocked.known (h : s.Stocked P) : s.known.AllValues P := by
  unfold Scene.known
  cases hown : s.timeline.own with
  | none => exact h.shared
  | some own => exact h.timeline.own own hown

/-- A value with the property waits for the next keyframe. -/
theorem Stocked.queue (h : s.Stocked P) (property : String) {value : StyleValue τ}
    (hvalue : P value) : (s.queue property value).Stocked P :=
  ⟨⟨h.timeline.keyframes, h.timeline.own, h.timeline.pending.insert property hvalue,
    h.timeline.backfill, h.timeline.summary⟩, h.shared⟩

/-- What is filled in later is a shared value, or `auto`. -/
theorem Stocked.backfill (h : s.Stocked P) (hauto : P .auto) (property : String) :
    (s.backfill property).Stocked P := by
  unfold Scene.backfill
  split
  · exact h
  · exact ⟨⟨h.timeline.keyframes, h.timeline.own, h.timeline.pending,
      h.timeline.backfill.insert property (h.shared.getD property hauto), h.timeline.summary⟩,
      h.shared⟩

/-- What waits goes to a keyframe that is there. -/
theorem Stocked.flush (h : s.Stocked P) : s.flush.Stocked P := by
  unfold Scene.flush
  split
  · exact h
  · refine ⟨⟨h.timeline.modify _ fun k hk => ?_, h.timeline.own, OrderedMap.allValues_empty,
      h.timeline.backfill, h.timeline.summary⟩, h.shared⟩
    exact (hk.insertAll h.timeline.pending).fill h.known

/-- An empty step writes `auto`, and fills in what is shared. -/
theorem Stocked.setEmptyStep (h : s.Stocked P) (hauto : P .auto) (easing : Option String) :
    (s.setEmptyStep easing).Stocked P := by
  have heased := h.timeline.easePrevious easing
  refine ⟨⟨heased.modify _ fun k hk => hk.insertAll fun entry hentry => ?_, heased.own,
    heased.pending, heased.backfill.insertAll h.shared, heased.summary⟩, h.shared⟩
  obtain ⟨property, -, rfl⟩ := List.mem_map.1 hentry
  exact hauto

variable [Quantity τ]

/-- A write is remembered by the timeline and shared. -/
theorem Stocked.note (h : s.Stocked P) (property : String) {value : StyleValue τ}
    (hvalue : P value) : (s.note property value).Stocked P := by
  refine ⟨⟨h.timeline.keyframes, fun m hm => ?_, h.timeline.pending, h.timeline.backfill,
    h.timeline.summary.insert property hvalue⟩, h.shared.insert property hvalue⟩
  -- a timeline without a memory of its own has nothing to keep
  obtain ⟨own, hown, rfl⟩ := Option.map_eq_some_iff.1 hm
  exact (h.timeline.own own hown).insert property hvalue

/-- Styles are queued, filled in and noted, one by one. -/
theorem Stocked.writeAll (h : s.Stocked P) (hauto : P .auto) (params : Params τ)
    {styles : List (String × StyleValue τ)}
    (hstyles : ∀ entry ∈ styles, P (entry.2.interpolate params).1) :
    (s.writeAll params styles).1.Stocked P :=
  writeAll_induct h fun _ hu entry hentry =>
    ((hu.queue entry.1 (hstyles entry hentry)).backfill hauto entry.1).note entry.1
      (hstyles entry hentry)

/-- A snapshot writes what is known already. -/
theorem Stocked.snapshot (h : s.Stocked P) : s.snapshot.Stocked P :=
  -- what was known at the start is queued, whatever becomes known on the way
  snapshot_induct h fun _ hu entry hentry =>
    (hu.queue entry.1 (h.known entry hentry)).note entry.1 (h.known entry hentry)

/-- To move on is to flush, and to begin a keyframe. -/
theorem Stocked.forwardTo (h : s.Stocked P) (time : τ) : (s.forwardTo time).Stocked P :=
  ⟨h.flush.timeline.loadKeyframe time, h.flush.shared⟩

/-- No change makes up a value but `auto`. -/
theorem Stocked.change (h : s.Stocked P) (hauto : P .auto) {c : Change τ}
    (hc : c.Supplies P s.shared) : (s.change c).Stocked P := by
  -- only a write brings values from outside; the rest move values of the scene, or `auto`
  cases c with
  | ease easing => exact ⟨⟨h.timeline.keyframes, h.timeline.own, h.timeline.pending,
      h.timeline.backfill, h.timeline.summary⟩, h.shared⟩
  | nextFrame => exact ⟨h.timeline.loadKeyframe _, h.shared⟩
  | moveTo time => exact h.forwardTo time
  | delay time =>
    simp only [Scene.change, delayNextStep]
    split
    · split
      · exact (h.forwardTo _).snapshot
      · exact h.forwardTo _
    · exact ⟨⟨h.timeline.keyframes, h.timeline.own, h.timeline.pending, h.timeline.backfill,
        h.timeline.summary⟩, h.shared⟩
  | write entries easing params =>
    exact Stocked.writeAll (s := s.onTimeline (Timeline.easePrevious easing))
      ⟨h.timeline.easePrevious easing, h.shared⟩ hauto params hc
  | emptyStep easing => exact h.setEmptyStep hauto easing
  | flush => exact h.flush
  | snapshot => exact h.snapshot

/-- A merge takes over what the other timeline has written. -/
theorem Stocked.merge (h : s.Stocked P) {other : Timeline τ} (hother : other.Stocked P) :
    (s.merge other).Stocked P :=
  merge_induct h fun _ hu entry hentry => hu.note entry.1 (hother.summary entry hentry)

end Scene

/-! ### Scores -/

/-- All style values of an instruction have a property. -/
def Instruction.Stocked (P : StyleValue τ → Prop) (i : Instruction τ) : Prop :=
  ∀ k ∈ i.keyframes, k.styles.AllValues P

variable [Quantity τ]

/-- All style values of a score have a property. -/
structure Score.Stocked (P : StyleValue τ → Prop) (s : Score τ) : Prop where
  timeline : ∀ id, (s.timeline id).Stocked P
  known : ∀ lineage element, (s.known lineage element).AllValues P
  placed : ∀ p, .placed p ∈ s.order → p.source.Stocked P

namespace Score

variable {P Q : StyleValue τ → Prop} {s : Score τ}

theorem Stocked.mono (h : s.Stocked P) (himp : ∀ v, P v → Q v) : s.Stocked Q where
  timeline id := (h.timeline id).mono himp
  known lineage element := (h.known lineage element).mono himp
  placed p hp k hk := (h.placed p hp k hk).mono himp

theorem Stocked.scene (h : s.Stocked P) (id : TimelineId) : (s.scene id).Stocked P :=
  ⟨h.timeline id, h.known _ _⟩

/-- One scene is changed, and all others stay. -/
theorem Stocked.edit (h : s.Stocked P) {id : TimelineId} {f : Scene τ → Scene τ}
    (hf : (f (s.scene id)).Stocked P) : (s.edit id f).Stocked P where
  timeline id' := timeline_edit_induct (P := Timeline.Stocked P) (fun _ => hf.timeline)
    (h.timeline id')
  known lineage element := by
    rw [Score.edit, known_put]
    split
    · exact hf.shared
    · exact h.known lineage element
  placed := h.placed

/-- A new timeline holds nothing. -/
theorem Stocked.enter (h : s.Stocked P) (lineage : Nat) (element : ElementId) (start : τ) :
    (s.enter lineage element start).2.Stocked P where
  timeline id := by
    -- a timeline is one of the old ones, the new one, or none at all
    rcases Nat.lt_trichotomy id s.timelines.length with hlt | rfl | hgt
    · rw [timeline_enter_of_lt lineage element start hlt]
      exact h.timeline id
    · rw [timeline_enter_self]
      refine Timeline.stocked_begin _ _ _ fun m hm => ?_
      split at hm
      · cases hm
        exact OrderedMap.allValues_empty
      · cases hm
    · rw [Score.timeline, List.getD_eq_default _ _ (by rw [length_timelines_enter]; exact hgt)]
      exact Timeline.stocked_begin _ _ _ fun m hm => absurd hm.symm (Option.some_ne_none m)
  known lineage' element' := by
    rw [known_enter]
    exact h.known lineage' element'
  placed p hp := by
    rw [order_enter, List.mem_append, List.mem_singleton] at hp
    rcases hp with hp | hp
    · exact h.placed p hp
    · cases hp

theorem stocked_empty : (empty : Score τ).Stocked P where
  timeline _ := Timeline.stocked_begin _ _ _ nofun
  known _ _ := OrderedMap.allValues_empty
  placed _ hp := nomatch hp

/-- A fork flushes the timeline that it comes from. -/
theorem Stocked.fork (h : s.Stocked P) (id : TimelineId) (element : ElementId) (at? : Option τ) :
    (s.fork id element at?).2.Stocked P := by
  rw [fork_eq]
  exact (h.edit (h.scene id).flush).enter _ _ _

theorem Stocked.merge (h : s.Stocked P) (into source : TimelineId) :
    (s.merge into source).Stocked P := by
  unfold Score.merge
  split
  · exact h
  · exact h.edit ((h.scene into).merge (h.timeline source))

theorem Stocked.place (h : s.Stocked P) {p : Placement τ} (hp : p.source.Stocked P) :
    (s.place p).Stocked P where
  timeline := h.timeline
  known := h.known
  placed q hq := by
    rcases List.mem_append.1 hq with hq | hq
    · exact h.placed q hq
    · cases List.mem_singleton.1 hq
      exact hp

end Score

/-! ### Instructions -/

/-- The keyframes of an instruction show what was on keyframes, or filled in later. -/
theorem Scene.Stocked.toInstruction {P : StyleValue τ → Prop} {s : Scene τ} (h : s.Stocked P) :
    s.toInstruction.Stocked P := by
  intro k hk
  obtain ⟨k', hk', hstyles⟩ := Scene.mem_styles_toInstruction.1 ⟨k, hk, rfl⟩
  rw [← hstyles]
  exact h.flush.timeline.backfill.insertAll (h.flush.timeline.keyframes k' hk')

/-- A placement shows the values of what it places. -/
theorem Instruction.Stocked.toInstruction {P : StyleValue τ → Prop} {p : Placement τ}
    (h : p.source.Stocked P) : p.toInstruction.Stocked P := by
  unfold Placement.toInstruction
  split
  · -- folding the delay into the keyframes repeats the first one
    intro k hk
    change k ∈ p.stretchedKeyframes at hk
    unfold Placement.stretchedKeyframes at hk
    split at hk
    · cases hk
    · next first rest hkeyframes =>
      have hfirst : first.styles.AllValues P := h first (hkeyframes ▸ List.mem_cons_self)
      rcases List.mem_cons.1 hk with rfl | hk
      · exact hfirst
      · rcases List.mem_cons.1 hk with rfl | hk
        · exact hfirst
        · obtain ⟨k', hk', rfl⟩ := List.mem_map.1 hk
          exact h k' (hkeyframes ▸ List.mem_cons_of_mem _ hk')
  · exact h

/-- The values in the instructions of a score are values of the score. -/
theorem Score.Stocked.instruction {P : StyleValue τ → Prop} {s : Score τ} (h : s.Stocked P)
    {e : Entry τ} (he : e ∈ s.order) : (s.instruction e).Stocked P := by
  cases e with
  | timeline id => exact (h.scene id).toInstruction
  | placed p => exact (h.placed p he).toInstruction

end Choreography
