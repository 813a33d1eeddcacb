/-
Choreography/Proofs/Integrity.lean

What is true of the timelines of a score at any time.

The fields of a timeline refer to one another.  Keyframes are told apart by their times, and
the clock, the keyframe before it and the empty step point to some of them
(`Timeline.Indexed`).  What waits or was written is known to the branch, and what the branch
knows is shared by all timelines of the element (`Scene.Consistent`).  The first timeline of
an element, and no other, has no memory of its own and knows all that is shared
(`Score.Consistent`).

An operation on one timeline changes what the others know, so the step lemmas are about the
whole score.  They ask that the operation is aimed at a timeline that is there
(`Score.Aims`): what is written through a handle that was never given out would be shared
under the name of no element.

Main results: `Score.intact_performAll`, and `Visit.consistent` for the walks of a run.
-/
import Choreography.Proofs.Block
import Choreography.Proofs.Clock

namespace Choreography

variable {τ : Type}

/-! ### Scenes -/

namespace Scene

/-- What waits or was written is known, and what is known is shared. -/
structure Consistent (s : Scene τ) : Prop where
  pending : ∀ p ∈ s.timeline.pending.keys, p ∈ s.known.keys
  summary : ∀ p ∈ s.timeline.summary.keys, p ∈ s.known.keys
  known : ∀ p ∈ s.known.keys, p ∈ s.shared.keys

section Consistent

variable {s s' : Scene τ}

/-- What concerns neither the known styles nor the written ones. -/
theorem Consistent.onTimeline (h : s.Consistent) {f : Timeline τ → Timeline τ}
    (hown : (f s.timeline).own = s.timeline.own)
    (hsummary : (f s.timeline).summary = s.timeline.summary)
    (hpending : ∀ p ∈ (f s.timeline).pending.keys, p ∈ s.timeline.pending.keys) :
    (s.onTimeline f).Consistent where
  pending p hp := by
    rw [known_onTimeline hown]
    exact h.pending p (hpending p hp)
  summary p hp := by
    rw [known_onTimeline hown]
    refine h.summary p ?_
    rwa [← hsummary]
  known p hp := by
    rw [known_onTimeline hown] at hp
    exact h.known p hp

/-- Others write what is shared. -/
theorem Consistent.of_shared (h : s.Consistent) (ht : s'.timeline = s.timeline)
    (hshared : ∀ p ∈ s.shared.keys, p ∈ s'.shared.keys) : s'.Consistent := by
  have hknown : ∀ p ∈ s.known.keys, p ∈ s'.known.keys := by
    unfold Scene.known
    rw [ht]
    -- the first timeline of an element knows what is shared, the others have a memory
    cases s.timeline.own with
    | none => exact hshared
    -- a memory of its own is not touched by what others write
    | some own => exact fun p hp => hp
  refine ⟨fun p hp => hknown p (h.pending p (ht ▸ hp)), fun p hp => hknown p (h.summary p (ht ▸ hp)),
    fun p hp => ?_⟩
  cases hown : s.timeline.own with
  | none => rwa [Scene.known, ht, hown] at hp
  | some own =>
    have hsame : s'.known = s.known := by simp only [Scene.known, ht, hown, Option.getD_some]
    exact hshared p (h.known p (hsame ▸ hp))

/-- A property is written that may be new to everybody. -/
theorem Consistent.absorb (h : s.Consistent) {property : String} {value : StyleValue τ}
    (hknown : s'.known = s.known.insert property value)
    (hshared : s'.shared = s.shared.insert property value)
    (hpending : ∀ p ∈ s'.timeline.pending.keys, p = property ∨ p ∈ s.timeline.pending.keys)
    (hsummary : ∀ p ∈ s'.timeline.summary.keys, p = property ∨ p ∈ s.timeline.summary.keys) :
    s'.Consistent where
  pending p hp := by
    rw [hknown, OrderedMap.mem_keys_insert]
    exact (hpending p hp).imp_right (h.pending p)
  summary p hp := by
    rw [hknown, OrderedMap.mem_keys_insert]
    exact (hsummary p hp).imp_right (h.summary p)
  known p hp := by
    rw [hknown, OrderedMap.mem_keys_insert] at hp
    rw [hshared, OrderedMap.mem_keys_insert]
    exact hp.imp_right (h.known p)

variable [Quantity τ]

/-- A value that is taken note of is known and shared. -/
theorem Consistent.note (h : s.Consistent) (property : String) (value : StyleValue τ) :
    (s.note property value).Consistent :=
  h.absorb (known_note s property value) rfl (fun _ => .inr)
    fun _ hp => OrderedMap.mem_keys_insert.1 hp

/-- A property is queued and taken note of. -/
theorem Consistent.note_queue (h : s.Consistent) (property : String) (value : StyleValue τ) :
    ((s.queue property value).note property value).Consistent :=
  h.absorb (known_note _ property value) rfl (fun _ hp => OrderedMap.mem_keys_insert.1 hp)
    fun _ hp => OrderedMap.mem_keys_insert.1 hp

/-- A written style is queued, known and shared. -/
theorem Consistent.write (h : s.Consistent) (property : String) (value : StyleValue τ) :
    (s.write property value).Consistent := by
  unfold Scene.write Scene.backfill
  split
  · exact h.note_queue property value
  · -- the backfill is not among the fields that refer to others
    exact h.absorb (known_note _ property value) rfl (fun _ hp => OrderedMap.mem_keys_insert.1 hp)
      fun _ hp => OrderedMap.mem_keys_insert.1 hp

theorem Consistent.writeAll (h : s.Consistent) (params : Params τ)
    (styles : List (String × StyleValue τ)) : (s.writeAll params styles).1.Consistent :=
  writeAll_induct h fun _ hu entry _ => hu.write entry.1 _

omit [Quantity τ] in
theorem Consistent.easePrevious (h : s.Consistent) (easing : Option String) :
    (s.onTimeline (Timeline.easePrevious easing)).Consistent := by
  refine h.onTimeline ?_ ?_ ?_
  all_goals
    unfold Timeline.easePrevious
    split
  · rfl
  · rfl
  · rfl
  · rfl
  · exact fun p hp => hp
  · exact fun p hp => hp

omit [Quantity τ] in
theorem Consistent.setEmptyStep (h : s.Consistent) (easing : Option String) :
    (s.setEmptyStep easing).Consistent :=
  (h.easePrevious easing).onTimeline rfl rfl fun _ hp => hp

omit [Quantity τ] in
/-- Nothing waits after a flush. -/
theorem Consistent.flush (h : s.Consistent) : s.flush.Consistent := by
  unfold Scene.flush
  split
  · exact h
  · exact h.onTimeline rfl rfl nofun

theorem Consistent.snapshot (h : s.Consistent) : s.snapshot.Consistent :=
  snapshot_induct h fun _ hu entry _ => hu.note_queue entry.1 entry.2

/-- Going to a keyframe touches no styles. -/
theorem Consistent.loadKeyframe (h : s.Consistent) (time : τ) :
    (s.onTimeline fun t => { t with duration := time }.loadKeyframe).Consistent := by
  refine h.onTimeline ?_ ?_ ?_
  all_goals
    simp only [Timeline.loadKeyframe]
    split
  · rfl
  · rfl
  · rfl
  · rfl
  · exact fun p hp => hp
  · exact fun p hp => hp

theorem Consistent.forwardTo (h : s.Consistent) (time : τ) : (s.forwardTo time).Consistent :=
  h.flush.loadKeyframe time

/-- Every change keeps a scene consistent. -/
theorem Consistent.change (h : s.Consistent) (c : Change τ) : (s.change c).Consistent := by
  cases c with
  | ease easing =>
    show (s.onTimeline fun t => { t with easing := easing }).Consistent
    exact h.onTimeline rfl rfl fun _ hp => hp
  | nextFrame => exact h.loadKeyframe _
  | moveTo time => exact h.forwardTo time
  | delay time =>
    simp only [Scene.change, delayNextStep]
    split
    · split
      · exact (h.forwardTo _).snapshot
      · exact h.forwardTo _
    · exact h.onTimeline rfl rfl fun _ hp => hp
  | write entries easing params => exact (h.easePrevious easing).writeAll params _
  | emptyStep easing => exact h.setEmptyStep easing
  | flush => exact h.flush
  | snapshot => exact h.snapshot

/-- So does a merge, whatever the other timeline is. -/
theorem Consistent.merge (h : s.Consistent) (other : Timeline τ) : (s.merge other).Consistent :=
  merge_induct h fun _ hu entry _ => hu.note entry.1 entry.2.value

end Consistent

end Scene

/-! ### Scores -/

namespace Score

variable [Quantity τ]

/-- Timelines of an element share what is known of it; the first one has no memory besides,
and each later one has. -/
structure Consistent (s : Score τ) : Prop where
  scene : ∀ id < s.timelines.length, (s.scene id).Consistent
  first : ∀ id < s.timelines.length,
    ((s.timeline id).own = none ↔ ∀ earlier < id, s.cell earlier ≠ s.cell id)
  /-- Something is shared of the elements of the timelines, and of no others. -/
  housed : ∀ key, s.shared.contains key = true ↔ ∃ id < s.timelines.length, s.cell id = key

theorem consistent_empty : (empty : Score τ).Consistent where
  scene id hid := absurd hid (Nat.not_lt_zero id)
  first id hid := absurd hid (Nat.not_lt_zero id)
  housed _ := ⟨nofun, fun ⟨id, hid, _⟩ => absurd hid (Nat.not_lt_zero id)⟩

variable {s : Score τ}

/-- Whose timelines there are, and which of them are the first, is not changed. -/
theorem Consistent.of_owner (h : s.Consistent) {s' : Score τ}
    (hlength : s'.timelines.length = s.timelines.length)
    (howner : ∀ id < s.timelines.length, (s'.timeline id).owner = (s.timeline id).owner)
    (hcontains : ∀ key, s'.shared.contains key = s.shared.contains key)
    (hscene : ∀ id < s.timelines.length, (s'.scene id).Consistent) : s'.Consistent := by
  have hcell : ∀ id < s.timelines.length, s'.cell id = s.cell id :=
    fun id hid => cell_eq_of_owner_eq (howner id hid)
  refine ⟨fun id hid => hscene id (hlength ▸ hid), fun id hid => ?_, fun key => ?_⟩
  · rw [hlength] at hid
    have hfirst : (s'.timeline id).own.isNone = (s.timeline id).own.isNone :=
      congrArg (fun o => o.2.2) (howner id hid)
    -- being the first is a matter of owners, so of what is not changed
    rw [← Option.isNone_iff_eq_none, hfirst, Option.isNone_iff_eq_none, h.first id hid, hcell id hid]
    exact forall₂_congr fun earlier hearlier => by rw [hcell earlier (hearlier.trans hid)]
  · rw [hcontains, h.housed, hlength]
    exact exists_congr fun id => and_congr_right fun hid => by rw [hcell id hid]

/-- An edit of one scene that keeps it consistent keeps the score so, if the scene stays that of its
owner and forgets nothing. -/
theorem Consistent.edit (h : s.Consistent) {target : TimelineId} (ht : target < s.timelines.length)
    {f : Scene τ → Scene τ} (hf : ∀ scene, Scene.Consistent scene → (f scene).Consistent)
    (hgrows : ∀ scene, Scene.Grows scene (f scene))
    (howner : ∀ scene, (f scene).timeline.owner = scene.timeline.owner) :
    (s.edit target f).Consistent := by
  refine h.of_owner (length_timelines_edit s target f) (fun id _ => ?_) (fun key => ?_)
    fun id hid => ?_
  · exact timeline_edit_induct (P := fun t => t.owner = (s.timeline id).owner)
      (howner (s.scene target)).trans rfl
  · rw [Score.edit, contains_put]
    -- the cell of the target was occupied before
    by_cases hkey : s.cell target = key
    · rw [(h.housed key).2 ⟨target, ht, hkey⟩, Bool.or_true]
    · have hne : decide (key = ((s.timeline target).lineage, (s.timeline target).element)) = false :=
        decide_eq_false fun e => hkey e.symm
      rw [hne, Bool.false_or]
  · -- the others see what has become shared, which can only be more
    by_cases hid' : target = id
    · subst hid'
      rw [scene_edit_self (howner _) hid]
      exact hf _ (h.scene target hid)
    · exact (h.scene id hid).of_shared (timeline_edit_of_ne f hid')
        (grows_edit target hgrows howner hid).shared

/-- A new timeline fits in. -/
theorem Consistent.enter (h : s.Consistent) (lineage : Nat) (element : ElementId) (start : τ) :
    (s.enter lineage element start).2.Consistent := by
  -- the timelines so far keep their cells
  have hold : ∀ id < s.timelines.length,
      (s.enter lineage element start).2.cell id = s.cell id := by
    intro id hid
    rw [cell, timeline_enter_of_lt lineage element start hid]
    rfl
  have hnew : (s.enter lineage element start).2.cell s.timelines.length = (lineage, element) := by
    rw [cell, timeline_enter_self]
    rfl
  refine ⟨fun id hid => ?_, fun id hid => ?_, fun key => ?_⟩
  · rw [length_timelines_enter] at hid
    rcases Nat.lt_succ_iff_lt_or_eq.1 hid with hlt | rfl
    · rw [scene_enter_of_lt lineage element start hlt]
      exact h.scene id hlt
    · -- the new timeline has written nothing, and what it knows is empty
      obtain ⟨own, hscene, hown⟩ := scene_enter_self s lineage element start
      rw [hscene]
      refine ⟨List.forall_mem_nil _, List.forall_mem_nil _, fun p hp => ?_⟩
      have hnone : p ∈ (own.getD (s.known lineage element)).keys := hp
      rw [hown] at hnone
      cases hnone
  · -- the ones before are the first of their elements as they were
    rw [length_timelines_enter] at hid
    rcases Nat.lt_succ_iff_lt_or_eq.1 hid with hlt | rfl
    · rw [timeline_enter_of_lt lineage element start hlt, h.first id hlt, hold id hlt]
      exact forall₂_congr fun earlier hearlier => by rw [hold earlier (hearlier.trans hlt)]
    · -- it gets a memory just if something is shared of the element, so if one came before it
      have hroom : s.shared.contains (lineage, element) = true ↔
          ∃ id < s.timelines.length, s.cell id = (lineage, element) := h.housed _
      rw [timeline_enter_self, hnew]
      show (if s.shared.contains (lineage, element) = true then some ∅ else none) = none ↔ _
      constructor
      · intro hown earlier hearlier hcell
        rw [hold earlier hearlier] at hcell
        rw [if_pos (hroom.2 ⟨earlier, hearlier, hcell⟩)] at hown
        cases hown
      · intro hearlier
        refine if_neg fun hcontains => ?_
        obtain ⟨id, hlt, hcell⟩ := hroom.1 hcontains
        exact hearlier id hlt ((hold id hlt).trans hcell)
  · -- an element is shared of if it was before or gets a timeline now
    rw [contains_enter, Bool.or_eq_true, decide_eq_true_eq, h.housed, length_timelines_enter]
    constructor
    · rintro (rfl | ⟨id, hid, hcell⟩)
      · exact ⟨s.timelines.length, Nat.lt_succ_self _, hnew⟩
      · exact ⟨id, Nat.lt_succ_of_lt hid, (hold id hid).trans hcell⟩
    · rintro ⟨id, hid, hcell⟩
      rcases Nat.lt_succ_iff_lt_or_eq.1 hid with hlt | rfl
      · exact .inr ⟨id, hlt, (hold id hlt).symm.trans hcell⟩
      · exact .inl (hcell.symm.trans hnew)

/-- **An operation that is aimed at a timeline of a consistent score leaves it consistent.** -/
theorem Consistent.perform (h : s.Consistent) (op : Operation τ)
    (hop : ∀ id ∈ op.target?, id < s.timelines.length) : (s.perform op).Consistent := by
  cases op with
  | begin element start =>
    exact Consistent.enter (s := { s with lineages := s.lineages + 1 })
      ⟨h.scene, h.first, h.housed⟩ _ _ _
  | fork id element at? =>
    -- a fork is a flush and a new timeline
    show (s.fork id element at?).2.Consistent
    rw [fork_eq]
    exact (h.edit (hop id rfl) (fun _ => .flush) Scene.grows_flush
      fun scene => scene.owner_change .flush).enter _ _ _
  | change id c =>
    exact h.edit (hop id rfl) (fun _ hs => hs.change c) (fun scene => scene.grows_change c)
      fun scene => scene.owner_change c
  | merge into source =>
    show (s.merge into source).Consistent
    unfold merge
    split
    · exact h
    · exact h.edit (hop into rfl) (fun _ hs => hs.merge _) (fun scene => scene.grows_merge _)
        fun scene => scene.owner_merge _
  | place p => exact ⟨h.scene, h.first, h.housed⟩

end Score

/-! ### Keyframes -/

namespace Timeline

/-- Where a timeline points to besides its clock. -/
def pointers (t : Timeline τ) : Option Nat × Option Nat := (t.previous, t.emptyStep)

/-- Keyframes are told apart by their times, and whatever points to a keyframe points to one
that is there. -/
structure Indexed (t : Timeline τ) : Prop where
  nodup : t.times.Nodup
  current : t.times[t.current]? = some t.duration
  previous : ∀ i ∈ t.previous, i < t.keyframes.length
  emptyStep : ∀ i ∈ t.emptyStep, i < t.keyframes.length

theorem length_times (t : Timeline τ) : t.times.length = t.keyframes.length := List.length_map _

theorem Indexed.current_lt {t : Timeline τ} (h : t.Indexed) : t.current < t.keyframes.length := by
  rw [← length_times]
  exact (List.getElem?_eq_some_iff.1 h.current).1

theorem Indexed.keyframes_ne_nil {t : Timeline τ} (h : t.Indexed) : t.keyframes ≠ [] :=
  List.ne_nil_of_length_pos (Nat.zero_lt_of_lt h.current_lt)

/-- Styles and easings do not matter. -/
theorem Indexed.of_eq {t t' : Timeline τ} (h : t.Indexed) (hs : t'.skeleton = t.skeleton)
    (hp : t'.pointers = t.pointers) : t'.Indexed := by
  have htimes : t'.times = t.times := congrArg Skeleton.times hs
  have hcurrent : t'.current = t.current := congrArg Skeleton.current hs
  have hduration : t'.duration = t.duration := congrArg Skeleton.duration hs
  have hlength : t'.keyframes.length = t.keyframes.length := by
    rw [← length_times, htimes, length_times]
  have hprevious : t'.previous = t.previous := congrArg Prod.fst hp
  have hempty : t'.emptyStep = t.emptyStep := congrArg Prod.snd hp
  refine ⟨htimes ▸ h.nodup, ?_, ?_, ?_⟩
  · rw [htimes, hcurrent, hduration]
    exact h.current
  · rw [hprevious, hlength]
    exact h.previous
  · rw [hempty, hlength]
    exact h.emptyStep

theorem pointers_easePrevious (easing : Option String) (t : Timeline τ) :
    (t.easePrevious easing).pointers = t.pointers := by
  unfold easePrevious
  split <;> rfl

theorem indexed_begin (lineage : Nat) (element : ElementId) (start : ℚ)
    (own : Option (StyleMap ℚ)) : (begin lineage element start own).Indexed where
  nodup := List.nodup_singleton _
  current := rfl
  previous := nofun
  emptyStep := nofun

/-- The clock goes to the keyframe for its time, which is made if there is none. -/
theorem Indexed.loadKeyframe {t : Timeline ℚ} (h : t.Indexed) (time : ℚ) :
    { t with duration := time }.loadKeyframe.Indexed := by
  have hne : t.keyframes.isEmpty = false := List.isEmpty_eq_false_iff.2 h.keyframes_ne_nil
  have htimes : { t with duration := time }.loadKeyframe.times =
      if time ∈ t.times then t.times else t.times ++ [time] :=
    times_loadKeyframe { t with duration := time }
  unfold Timeline.loadKeyframe at htimes ⊢
  simp only [hne, Bool.false_eq_true, if_false] at htimes ⊢
  split at htimes
  · next i hi =>
    -- the clock moves to a keyframe that is there
    obtain ⟨hlt, htime, -⟩ := List.findIdx?_eq_some_iff_getElem.1 hi
    refine ⟨h.nodup, ?_, fun j hj => ?_, h.emptyStep⟩
    · show (t.keyframes.map TimedKeyframe.time)[i]? = some time
      rw [List.getElem?_map, List.getElem?_eq_getElem hlt, Option.map_some, eq_of_beq htime]
    · obtain rfl := Option.some.inj hj
      exact h.current_lt
  · next hi =>
    -- a keyframe is added for a time that no other one has
    have hnew : time ∉ t.times := by
      rw [List.findIdx?_eq_none_iff] at hi
      intro hmem
      obtain ⟨k, hk, htime⟩ := List.mem_map.1 hmem
      simpa [htime] using hi k hk
    rw [if_neg hnew] at htimes
    have hlength : t.keyframes.length <
        (t.keyframes ++ [(⟨time, none, ∅⟩ : TimedKeyframe ℚ)]).length := by simp
    -- the new keyframe is the last one, and everything else points below it
    refine ⟨?_, ?_, fun j hj => ?_, fun j hj => (h.emptyStep j hj).trans hlength⟩
    · rw [htimes, List.nodup_append]
      refine ⟨h.nodup, List.nodup_singleton _, fun a ha b hb => ?_⟩
      rw [List.mem_singleton] at hb
      rintro rfl
      exact hnew (hb ▸ ha)
    · rw [htimes]
      show (t.times ++ [time])[t.keyframes.length]? = some time
      rw [← length_times, List.getElem?_concat_length]
    · obtain rfl := Option.some.inj hj
      exact h.current_lt.trans hlength

end Timeline

namespace Scene

section Pointers

variable [Quantity τ] (s : Scene τ)

omit [Quantity τ] in
@[simp] theorem pointers_backfill (property : String) :
    (s.backfill property).timeline.pointers = s.timeline.pointers := by
  unfold backfill
  split <;> rfl

@[simp] theorem pointers_write (property : String) (value : StyleValue τ) :
    (s.write property value).timeline.pointers = s.timeline.pointers :=
  pointers_backfill (s.queue property value) property

theorem pointers_writeAll (params : Params τ) (styles : List (String × StyleValue τ))
    (s : Scene τ) : (s.writeAll params styles).1.timeline.pointers = s.timeline.pointers :=
  writeAll_induct (P := fun u => u.timeline.pointers = s.timeline.pointers) rfl
    fun u hu _ _ => (u.pointers_write _ _).trans hu

/-- Writing styles moves no pointer. -/
theorem pointers_setStyles (entries : List (StyleEntry τ)) (easing : Option String)
    (params : Params τ) :
    (s.setStyles entries easing params).1.timeline.pointers = s.timeline.pointers := by
  rw [setStyles, pointers_writeAll]
  exact Timeline.pointers_easePrevious easing s.timeline

omit [Quantity τ] in
@[simp] theorem pointers_flush : s.flush.timeline.pointers = s.timeline.pointers := by
  unfold flush
  split <;> rfl

theorem pointers_snapshot : s.snapshot.timeline.pointers = s.timeline.pointers := by
  rw [timeline_snapshot]
  rfl

theorem pointers_merge (other : Timeline τ) :
    (s.merge other).timeline.pointers = s.timeline.pointers := by
  rw [timeline_merge]
  rfl

end Pointers

variable {s : Scene ℚ}

theorem indexed_forwardTo (h : s.timeline.Indexed) (time : ℚ) :
    (s.forwardTo time).timeline.Indexed :=
  (h.of_eq s.skeleton_flush s.pointers_flush).loadKeyframe time

/-- Every change keeps the keyframes in order. -/
theorem indexed_change (h : s.timeline.Indexed) (c : Change ℚ) :
    (s.change c).timeline.Indexed := by
  cases c with
  | ease easing => exact h.of_eq rfl rfl
  | nextFrame => exact h.loadKeyframe _
  | moveTo time => exact indexed_forwardTo h time
  | delay time =>
    simp only [change, delayNextStep]
    split
    · split
      · exact (indexed_forwardTo h _).of_eq (skeleton_snapshot _) (pointers_snapshot _)
      · exact indexed_forwardTo h _
    · -- before anything has happened a delay moves the start alone
      exact ⟨h.nodup, h.current, h.previous, h.emptyStep⟩
  | write entries easing params =>
    exact h.of_eq (s.skeleton_setStyles entries easing params)
      (s.pointers_setStyles entries easing params)
  | emptyStep easing =>
    have hease := Timeline.skeleton_easePrevious easing s.timeline
    have heased := h.of_eq hease (Timeline.pointers_easePrevious easing s.timeline)
    -- the empty step points to the current keyframe, and the rest is about styles
    have hrest : ({ (s.setEmptyStep easing).timeline with
        emptyStep := (s.timeline.easePrevious easing).emptyStep } : Timeline ℚ).Indexed :=
      heased.of_eq ((s.skeleton_setEmptyStep easing).trans hease.symm) rfl
    refine ⟨hrest.nodup, hrest.current, hrest.previous, fun i hi => ?_⟩
    obtain rfl := Option.some.inj hi
    exact hrest.current_lt
  | flush => exact h.of_eq s.skeleton_flush s.pointers_flush
  | snapshot => exact h.of_eq s.skeleton_snapshot s.pointers_snapshot

/-- So does a merge, which touches no keyframes. -/
theorem indexed_merge (h : s.timeline.Indexed) (other : Timeline ℚ) :
    (s.merge other).timeline.Indexed :=
  h.of_eq (s.skeleton_merge other) (s.pointers_merge other)

end Scene

/-! ### Runs -/

namespace Score

/-- Every operation of a run is aimed at a timeline that is there. -/
def Aims [Quantity τ] : Score τ → List (Operation τ) → Prop
  | _, [] => True
  | s, op :: ops => (∀ id ∈ op.target?, id < s.timelines.length) ∧ (s.perform op).Aims ops

instance Aims.decidable [Quantity τ] :
    (s : Score τ) → (ops : List (Operation τ)) → Decidable (s.Aims ops)
  | _, [] => .isTrue trivial
  | s, op :: ops =>
    have := Aims.decidable (s.perform op) ops
    inferInstanceAs (Decidable ((∀ id ∈ op.target?, id < s.timelines.length) ∧ _))

/-- A run of operations that are all aimed leaves a score consistent. -/
theorem Consistent.performAll [Quantity τ] {s : Score τ} (h : s.Consistent)
    {ops : List (Operation τ)} (hops : s.Aims ops) : (s.performAll ops).Consistent := by
  induction ops generalizing s with
  | nil => exact h
  | cons op ops ih => exact ih (h.perform op hops.1) hops.2

/-- An edit after which its own timeline is in order leaves all of them in order. -/
theorem indexed_edit {s : Score ℚ} (h : ∀ id, (s.timeline id).Indexed) {target : TimelineId}
    {f : Scene ℚ → Scene ℚ} (hf : (f (s.scene target)).timeline.Indexed) (id : TimelineId) :
    ((s.edit target f).timeline id).Indexed :=
  timeline_edit_induct (P := Timeline.Indexed) (fun _ => hf) (h id)

theorem indexed_enter {s : Score ℚ} (h : ∀ id, (s.timeline id).Indexed) (lineage : Nat)
    (element : ElementId) (start : ℚ) (id : TimelineId) :
    ((s.enter lineage element start).2.timeline id).Indexed := by
  rcases Nat.lt_trichotomy id s.timelines.length with hlt | rfl | hgt
  · rw [timeline_enter_of_lt lineage element start hlt]
    exact h id
  · rw [timeline_enter_self]
    exact Timeline.indexed_begin _ _ _ _
  · rw [timeline, List.getD_eq_default _ _ (by rw [length_timelines_enter]; exact hgt)]
    exact Timeline.indexed_begin _ _ _ _

/-- Every operation keeps the keyframes of all timelines in order, aimed or not. -/
theorem indexed_perform {s : Score ℚ} (h : ∀ id, (s.timeline id).Indexed) (op : Operation ℚ) :
    ∀ id, ((s.perform op).timeline id).Indexed := by
  cases op with
  | begin element start => exact indexed_enter (s := { s with lineages := s.lineages + 1 }) h _ _ _
  | fork id element at? =>
    -- the flush comes first, as a change of the timeline that is forked
    show ∀ id', ((s.fork id element at?).2.timeline id').Indexed
    rw [fork_eq]
    exact indexed_enter (indexed_edit h (Scene.indexed_change (h id) .flush)) _ _ _
  | change id c => exact indexed_edit h (f := (·.change c)) (Scene.indexed_change (h id) c)
  | merge into source =>
    show ∀ id', ((s.merge into source).timeline id').Indexed
    unfold merge
    split
    · exact h
    · exact indexed_edit h (Scene.indexed_merge (h into) _)
  | place p => exact h

end Score

/-! ### Walks -/

namespace Walk

variable [Quantity τ]

/-- The scope stands on a timeline that is there, and the score is consistent. -/
structure Consistent (w : Walk τ) : Prop where
  line : w.scope.timeline < w.score.timelines.length
  score : w.score.Consistent

/-- What leads from a consistent walk to a consistent one. -/
structure Sustains (w w' : Walk τ) : Prop where
  effect : Effect w w'
  consistent : w.Consistent → w'.Consistent

theorem Consistent.of_eq {w u : Walk τ} (h : w.Consistent) (hs : u.score = w.score)
    (ht : u.scope.timeline = w.scope.timeline) : u.Consistent :=
  ⟨hs ▸ ht ▸ h.line, hs ▸ h.score⟩

/-- An operation on the timeline of the scope keeps a walk consistent. -/
theorem Consistent.perform {w : Walk τ} (h : w.Consistent) (op : Operation τ)
    (hop : ∀ id, op.target? = some id → id = w.scope.timeline) :
    ({ w with score := w.score.perform op } : Walk τ).Consistent where
  line := Nat.lt_of_lt_of_le h.line (Score.length_timelines_perform _ op)
  score := h.score.perform op fun id hid => hop id hid ▸ h.line

/-- A scope is entered on a timeline that is there. -/
theorem Consistent.enter {w : Walk τ} (h : w.Consistent) (options : Option (Options τ))
    (element : ElementId) : (w.enter options element).Consistent where
  line := by
    rw [enter_timeline, enter_length]
    exact Nat.lt_succ_self _
  score := by
    rw [enter_score]
    exact h.score.perform _ fun id hid => Option.some.inj hid ▸ h.line

theorem sustains_perform {w : Walk τ} (op : Operation τ)
    (hop : ∀ id, op.target? = some id → id = w.scope.timeline) :
    Sustains w { w with score := w.score.perform op } :=
  ⟨.perform op hop, fun h => h.perform op hop⟩

/-- What sustains a walk is put together like what has an effect on it. -/
theorem Sustains.compositional : Compositional (Sustains : Walk τ → Walk τ → Prop) where
  refl w := ⟨.refl w, id⟩
  trans h h' := ⟨h.effect.trans h'.effect, h'.consistent ∘ h.consistent⟩
  change w c := sustains_perform (.change w.scope.timeline c)
    fun _ hid => (Option.some.inj hid).symm
  merge source w := sustains_perform (.merge w.scope.timeline source)
    fun _ hid => (Option.some.inj hid).symm
  place p w := sustains_perform (.place p) nofun
  rescope w scope he ht := ⟨.rescope w scope he ht, fun h => h.of_eq rfl ht⟩
  report w reports := ⟨.report w reports, fun h => h.of_eq rfl rfl⟩
  renew at? w := by
    refine ⟨effect_renew at? w, fun h => ⟨?_, ?_⟩⟩
    · rw [renew_timeline]
      show _ < (w.score.fork _ _ _).2.timelines.length
      rw [Score.length_timelines_fork]
      exact Nat.lt_succ_self _
    · exact h.score.perform (.fork w.scope.timeline w.scope.element at?)
        fun id hid => Option.some.inj hid ▸ h.line
  leave := by
    -- the score is the inner one, and the timeline of the scope is there as it was before
    intro w u inner options element hs hd ht h
    have hleave : Effect w (leave w.scope inner) := .leave hs hd ht h.effect
    refine ⟨hleave, fun hw => ⟨Nat.lt_of_lt_of_le hw.line hleave.length_le, ?_⟩⟩
    exact (h.consistent ((hw.of_eq hs ht).enter options element)).score

theorem consistent_blank (root : ElementId) (setup : Setup τ) (sink : List Diagnostic) :
    (blank root setup sink).Consistent :=
  ⟨(valid_blank root setup sink).timeline, Score.consistent_empty.perform (.begin root 0) nofun⟩

/-- A run starts with a consistent walk. -/
theorem consistent_start (root : ElementId) (setup : Setup τ) (sink : List Diagnostic) :
    (start root setup sink).Consistent := by
  have hc : Compositional (Sustains : Walk τ → Walk τ → Prop) := Sustains.compositional
  rw [start_eq]
  exact (hc.writeAt _ _ _).consistent
    ((hc.delay _ _).consistent (consistent_blank root setup sink))

end Walk

/-- A tree leads from a consistent walk to a consistent one. -/
theorem Animation.sustains [Quantity τ] (setting : Setting τ) (tree : Animation τ) (w : Walk τ) :
    Walk.Sustains w (tree.body setting w) :=
  Walk.Sustains.compositional.body setting tree w

/-- Whatever is visited from a consistent walk is visited in one. -/
theorem Visit.consistent [Quantity τ] {setting : Setting τ} {tree node : Animation τ}
    {w v : Walk τ} (h : Visit setting tree w node v) (hw : w.Consistent) : v.Consistent := by
  have hc : Walk.Compositional (Walk.Sustains : Walk τ → Walk τ → Prop) :=
    Walk.Sustains.compositional
  induction h with
  | here tree w => exact hw
  | @step pre post step options w node v _ ih =>
    -- with options the steps run in a scope, without in the one around
    have hopen : (w.openSequence options).Consistent := by
      unfold Walk.openSequence
      cases Walk.scoping options with
      | none => exact hw
      | some o => exact (hc.openScoped o w).consistent (hw.enter _ _)
    exact ih ((hc.foldl hc.of_mem_bodies _).consistent hopen)
  | branch _ ih =>
    exact ih ((hc.delay _ _).consistent
      (((hc.branches hc.of_mem_bodies _ _ _).consistent hw).enter _ _))
  | reference _ ih => exact ih ((hc.update _ _ _).consistent hw)
  | use _ ih => exact ih ((hc.openUse _ _ _).consistent (hw.enter _ _))
  | @«match» q animation options w pre post element node v _ _ ih =>
    -- the matches before this one leave a consistent walk
    have hdone : (w.beforeMatch setting (animation.body setting) q options pre).Consistent :=
      (hc.matchesFrom (animation.sustains setting) options pre _ _ _ _).consistent
        ((hc.openQuery q _ options w).consistent hw)
    exact ih ((hc.delay _ _).consistent
      ((hdone.of_eq (u := Walk.indexed pre.length _) rfl rfl).enter _ _))
  | @stagger timing animation w node v _ ih =>
    refine ih ?_
    -- a stagger outside of a scope reports and does nothing else
    unfold Walk.atStagger
    split
    · exact hw.of_eq rfl rfl
    · exact (hc.openStagger timing _ w).consistent hw

end Choreography
