/-
Choreography/Proofs/Landing.lean

Where keyframes land.

Keyframes are played on a timeline of their own, which begins when the delay of their step is
over.  Each of them moves the clock to its share of the duration and finishes the keyframe that is
there, so a later one at the same offset writes over the values of an earlier one
(`Timeline.Landed`).

The instruction counts its offsets in the time of the last keyframe, and not in the duration of
the step, which is longer if the last offset is below 1.  Its own duration is that time as well, so
this does not move a keyframe (`Scene.exists_keyframe`).

Main result: `keyframes_land`.
-/
import Choreography.Proofs.FinalStyles
import Choreography.Proofs.Held
import Choreography.Proofs.Length

namespace Choreography

/-! ### Declared values -/

/-- The value that an entry declares for a property. -/
def StyleEntry.declared (p : String) : StyleEntry ℚ → Option (StyleValue ℚ)
  | .values m => m.get? p
  | .wildcard => none

/-- The value that a step declares last for a property. -/
def StyleStep.declared (p : String) (step : StyleStep ℚ) : Option (StyleValue ℚ) :=
  step.entries.reverse.findSome? (StyleEntry.declared p)

/-- The value that some step at an offset declares last for a property. -/
def declaredAt (p : String) (offset : ℚ) (steps : List (StyleStep ℚ × ℚ)) :
    Option (StyleValue ℚ) :=
  steps.reverse.findSome? fun s => if s.2 = offset then s.1.declared p else none

section Declared

variable {p : String} {offset : ℚ} {steps : List (StyleStep ℚ × ℚ)}

theorem declaredAt_append (p : String) (offset : ℚ) (before after : List (StyleStep ℚ × ℚ)) :
    declaredAt p offset (before ++ after) =
      (declaredAt p offset after).or (declaredAt p offset before) := by
  simp [declaredAt, List.reverse_append, List.findSome?_append]

theorem declaredAt_singleton (p : String) (offset : ℚ) (s : StyleStep ℚ × ℚ) :
    declaredAt p offset [s] = if s.2 = offset then s.1.declared p else none := by
  simp [declaredAt]

/-- What is declared at an offset is declared by a step at this offset. -/
theorem exists_of_declaredAt {value : StyleValue ℚ} (h : declaredAt p offset steps = some value) :
    ∃ s ∈ steps, s.2 = offset := by
  obtain ⟨s, hs, hvalue⟩ := List.exists_of_findSome?_eq_some h
  refine ⟨s, List.mem_reverse.1 hs, ?_⟩
  by_contra hne
  rw [if_neg hne] at hvalue
  cases hvalue

/-- What a step declares is declared at its offset, by this step or a later one. -/
theorem exists_declaredAt {s : StyleStep ℚ × ℚ} (hs : s ∈ steps) {values : StyleMap ℚ}
    (hvalues : .values values ∈ s.1.entries) (hp : p ∈ values.keys) :
    ∃ value, declaredAt p s.2 steps = some value := by
  have hentry : (StyleEntry.declared p (.values values)).isSome :=
    (OrderedMap.get?_isSome values p).trans (OrderedMap.contains_iff_mem_keys.2 hp)
  have hstep : (s.1.declared p).isSome :=
    List.findSome?_isSome_iff.2 ⟨_, List.mem_reverse.2 hvalues, hentry⟩
  rw [← Option.isSome_iff_exists]
  refine List.findSome?_isSome_iff.2 ⟨s, List.mem_reverse.2 hs, ?_⟩
  rwa [if_pos rfl]

/-- Entries without a wildcard stand for what they declare. -/
theorem Scene.get?_flatten {known : StyleMap ℚ} {entries : List (StyleEntry ℚ)}
    (h : .wildcard ∉ entries) (p : String) :
    (flatten known entries).get? p = entries.reverse.findSome? (StyleEntry.declared p) := by
  -- from the end, since the last entry counts
  induction entries using List.reverseRecOn with
  | nil => rfl
  | append_singleton entries entry ih =>
    rw [List.mem_append, not_or, List.mem_singleton] at h
    cases entry with
    | wildcard => exact absurd rfl h.2
    | values m =>
      have hflatten : flatten known (entries ++ [.values m]) =
          (flatten known entries).insertAll m.entries := by
        simp [flatten, OrderedMap.ofList, OrderedMap.insertAll, List.flatMap_append]
      have hlast : (entries ++ [StyleEntry.values m]).reverse.findSome? (StyleEntry.declared p) =
          (m.get? p).or (entries.reverse.findSome? (StyleEntry.declared p)) := by
        rw [List.reverse_append, List.findSome?_append]
        simp [StyleEntry.declared]
      rw [hflatten, OrderedMap.get?_insertAll _ _ m.nodup, ← OrderedMap.get?_eq_lookup, ih h.1,
        hlast]

end Declared

/-! ### What waits -/

namespace Scene

variable {s : Scene ℚ}

theorem pending_writeAll (params : Params ℚ) (styles : List (String × StyleValue ℚ))
    (s : Scene ℚ) :
    (s.writeAll params styles).1.timeline.pending = s.timeline.pending.insertAll
      (styles.map fun entry => (entry.1, (entry.2.interpolate params).1)) := by
  induction styles generalizing s with
  | nil => rfl
  | cons entry rest ih =>
    show (Scene.writeAll params rest
      (s.write entry.1 (entry.2.interpolate params).1)).1.timeline.pending = _
    rw [ih, pending_write]
    rfl

/-- If nothing else waits, a step queues what its entries stand for. -/
theorem pending_setStyles (hpending : s.timeline.pending.isEmpty = true)
    (entries : List (StyleEntry ℚ)) (easing : Option String) (params : Params ℚ) :
    (s.setStyles entries easing params).1.timeline.pending =
      (flatten s.shared entries).mapEntries fun _ value => (value.interpolate params).1 := by
  have hempty : s.timeline.pending = ∅ := OrderedMap.ext (List.isEmpty_iff.1 hpending)
  have hease : (s.timeline.easePrevious easing).pending = ∅ := by
    unfold Timeline.easePrevious
    split <;> exact hempty
  rw [← OrderedMap.ofList_entries ((flatten s.shared entries).mapEntries _)]
  refine (pending_writeAll params _ (s.onTimeline (Timeline.easePrevious easing))).trans ?_
  show (s.timeline.easePrevious easing).pending.insertAll _ = _
  rw [hease]
  rfl

/-- Written styles wait, and are on no keyframe yet. -/
theorem shelf_setStyles (s : Scene ℚ) (entries : List (StyleEntry ℚ)) (easing : Option String)
    (params : Params ℚ) :
    (s.setStyles entries easing params).1.timeline.shelf = s.timeline.shelf := by
  have hwrite : (s.setStyles entries easing params).1.timeline.keyframes =
      (s.timeline.easePrevious easing).keyframes :=
    keyframes_writeAll params _ (s.onTimeline (Timeline.easePrevious easing))
  rw [← Timeline.shelf_easePrevious easing s.timeline, Timeline.shelf, hwrite]
  rfl

theorem flush_of_empty (hpending : s.timeline.pending.isEmpty = true) : s.flush = s :=
  if_pos hpending

end Scene

/-! ### Landed keyframes -/

/-- Some steps have been played over a duration: each of them has a keyframe at its share of it,
and the keyframes hold the values that were declared last for their time. -/
structure Timeline.Landed (duration : ℚ) (params : Params ℚ) (done : List (StyleStep ℚ × ℚ))
    (t : Timeline ℚ) : Prop where
  indexed : t.Indexed
  bounds : ∀ x ∈ t.times, 0 ≤ x ∧ x ≤ t.duration
  pending : t.pending.isEmpty = true
  emptyStep : t.emptyStep = none
  times : ∀ s ∈ done, s.2 * duration ∈ t.times
  shelf : ∀ k ∈ t.shelf, ∀ p offset value, k.1 = offset * duration →
    declaredAt p offset done = some value → k.2.get? p = some (value.interpolate params).1

section Landed

variable {t : Timeline ℚ} {duration : ℚ} {params : Params ℚ} {done : List (StyleStep ℚ × ℚ)}

namespace Timeline

/-- To begin with, no step has been played. -/
theorem landed_begin (lineage : Nat) (element : ElementId) (start : ℚ)
    (own : Option (StyleMap ℚ)) (easing : Option String) :
    { begin lineage element start own with easing := easing }.Landed duration params [] where
  indexed := (indexed_begin lineage element start own).of_eq rfl rfl
  bounds x hx := by
    rw [List.mem_singleton.1 hx]
    exact ⟨le_rfl, le_rfl⟩
  pending := rfl
  emptyStep := rfl
  times s hs := by cases hs
  shelf k hk p offset value hoffset hvalue := by cases hvalue

theorem emptyStep_loadKeyframe (t : Timeline ℚ) : t.loadKeyframe.emptyStep = t.emptyStep := by
  simp only [loadKeyframe]
  split <;> rfl

/-- No step has declared anything for a keyframe that is made. -/
theorem Landed.loadKeyframe (h : t.Landed duration params done) {time : ℚ}
    (hle : t.duration ≤ time) :
    { t with duration := time }.loadKeyframe.Landed duration params done := by
  have hnow : t.duration ∈ t.times := List.mem_of_getElem? h.indexed.current
  have hkeyframes : { t with duration := time }.loadKeyframe.keyframes =
      if time ∈ t.times then t.keyframes else t.keyframes ++ [⟨time, none, ∅⟩] :=
    keyframes_loadKeyframe _
  refine ⟨h.indexed.loadKeyframe time, bounds_loadKeyframe hnow h.bounds hle, ?_, ?_,
    fun s hs => ?_, ?_⟩
  · rw [Scene.pending_loadKeyframe]
    exact h.pending
  · rw [emptyStep_loadKeyframe]
    exact h.emptyStep
  · exact (Scene.prefix_times_loadKeyframe { t with duration := time }).subset (h.times s hs)
  · rw [Timeline.shelf, hkeyframes]
    split
    · exact h.shelf
    · next hnew =>
      rw [List.map_append]
      refine List.forall_mem_append.2 ⟨h.shelf, List.forall_mem_singleton.2 ?_⟩
      intro p offset value hoffset hvalue
      -- a step that declares something for this time has had a keyframe made
      obtain ⟨s, hs, rfl⟩ := exists_of_declaredAt hvalue
      have htime : time = s.2 * duration := hoffset
      exact absurd (htime ▸ h.times s hs) hnew

/-- Where the clock is, the values of a step come before those that are there. -/
theorem Landed.get?_here (h : t.Landed duration params done) {step : StyleStep ℚ} {offset : ℚ}
    (hclock : t.duration = offset * duration) {styles : StyleMap ℚ}
    (hstyles : (t.duration, styles) ∈ t.shelf) {p : String} {value : StyleValue ℚ}
    (hvalue : declaredAt p offset (done ++ [(step, offset)]) = some value) :
    ((step.declared p).map fun value => (value.interpolate params).1).or (styles.get? p) =
      some (value.interpolate params).1 := by
  rw [declaredAt_append, declaredAt_singleton, if_pos rfl] at hvalue
  -- the new step declares the property, or the value of an earlier one still counts
  cases hstep : step.declared p with
  | none =>
    rw [hstep, Option.none_or] at hvalue
    rw [Option.map_none, Option.none_or]
    exact h.shelf _ hstyles p offset value hclock hvalue
  | some last =>
    rw [hstep, Option.some_or] at hvalue
    obtain rfl := Option.some.inj hvalue
    rfl

/-- Elsewhere they do not count. -/
theorem Landed.get?_elsewhere (h : t.Landed duration params done) {step : StyleStep ℚ}
    {offset offset' : ℚ} (hclock : t.duration = offset * duration) {k : ℚ × StyleMap ℚ}
    (hk : k ∈ t.shelf) (hne : k.1 ≠ t.duration) (hoffset : k.1 = offset' * duration) {p : String}
    {value : StyleValue ℚ}
    (hvalue : declaredAt p offset' (done ++ [(step, offset)]) = some value) :
    k.2.get? p = some (value.interpolate params).1 := by
  have hapart : offset ≠ offset' := by
    rintro rfl
    exact hne (hoffset.trans hclock.symm)
  rw [declaredAt_append, declaredAt_singleton, if_neg hapart, Option.none_or] at hvalue
  exact h.shelf k hk p offset' value hoffset hvalue

end Timeline

namespace Scene

variable {s s' : Scene ℚ}

theorem landed_forwardTo (h : s.timeline.Landed duration params done) {time : ℚ}
    (hle : s.timeline.duration ≤ time) :
    (s.forwardTo time).timeline.Landed duration params done := by
  unfold forwardTo
  rw [flush_of_empty h.pending]
  exact h.loadKeyframe hle

/-- After a keyframe has been finished, the values that waited for it and those that it had are
on it. -/
theorem get?_shelf_flush (h : s.timeline.Indexed) {k : ℚ × StyleMap ℚ}
    (hk : k ∈ s.flush.timeline.shelf) :
    (k.1 = s.timeline.duration ∧ ∃ styles, (s.timeline.duration, styles) ∈ s.timeline.shelf ∧
      ∀ p value, (s.timeline.pending.get? p).or (styles.get? p) = some value →
        k.2.get? p = some value) ∨
      (k.1 ≠ s.timeline.duration ∧ k ∈ s.timeline.shelf) := by
  -- if nothing waits, nothing is finished
  cases hpending : s.timeline.pending.isEmpty with
  | true =>
    have hempty : s.timeline.pending = ∅ := OrderedMap.ext (List.isEmpty_iff.1 hpending)
    rw [flush_of_empty hpending] at hk
    by_cases hnow : k.1 = s.timeline.duration
    · refine .inl ⟨hnow, k.2, hnow ▸ hk, fun p value hvalue => ?_⟩
      rwa [hempty, OrderedMap.get?_empty, Option.none_or] at hvalue
    · exact .inr ⟨hnow, hk⟩
  | false =>
    rcases mem_shelf_flush h.nodup h.current hpending hk with ⟨styles, hstyles, rfl⟩ | hother
    · refine .inl ⟨rfl, styles, hstyles, fun p value hvalue => ?_⟩
      rw [OrderedMap.get?_fill, OrderedMap.get?_insertAll _ _ s.timeline.pending.nodup,
        ← OrderedMap.get?_eq_lookup, hvalue, Option.some_or]
    · exact .inr hother

/-- A step that is written and finished where the clock is has landed. -/
theorem landed_flush (h : s.timeline.Landed duration params done) (hlasts : duration ≠ 0)
    {step : StyleStep ℚ} {offset : ℚ} (hclock : s.timeline.duration = offset * duration)
    (hplain : .wildcard ∉ step.entries)
    (hs' : s'.timeline = (s.setStyles step.entries step.easing params).1.timeline) :
    s'.flush.timeline.Landed duration params (done ++ [(step, offset)]) := by
  have hskeleton : s'.timeline.skeleton = s.timeline.skeleton := by
    rw [hs']
    exact s.skeleton_setStyles step.entries step.easing params
  have hpointers : s'.timeline.pointers = s.timeline.pointers := by
    rw [hs']
    exact s.pointers_setStyles step.entries step.easing params
  -- nothing else waited, so what waits now is what the step declares
  have hpending : ∀ p, s'.timeline.pending.get? p =
      (step.declared p).map fun value => (value.interpolate params).1 := by
    intro p
    rw [hs', pending_setStyles h.pending, OrderedMap.get?_mapEntries, get?_flatten hplain]
    rfl
  have hshelf : s'.timeline.shelf = s.timeline.shelf := by
    rw [hs']
    exact s.shelf_setStyles step.entries step.easing params
  have hindexed := h.indexed.of_eq hskeleton hpointers
  have hduration : s'.timeline.duration = s.timeline.duration :=
    congrArg Skeleton.duration hskeleton
  have hflush := s'.skeleton_flush.trans hskeleton
  have htimes : s'.flush.timeline.times = s.timeline.times := congrArg Skeleton.times hflush
  refine ⟨hindexed.of_eq s'.skeleton_flush s'.pointers_flush, ?_, s'.pending_flush, ?_, ?_, ?_⟩
  · rw [htimes, show s'.flush.timeline.duration = s.timeline.duration from
      congrArg Skeleton.duration hflush]
    exact h.bounds
  · exact (congrArg Prod.snd (s'.pointers_flush.trans hpointers)).trans h.emptyStep
  · rw [htimes, List.forall_mem_append, List.forall_mem_singleton]
    exact ⟨h.times, hclock ▸ List.mem_of_getElem? h.indexed.current⟩
  · intro k hk p offset' value hoffset hvalue
    rcases get?_shelf_flush hindexed hk with ⟨hnow, styles, hstyles, hget⟩ | ⟨hnow, hk⟩
    · rw [hduration] at hnow
      rw [hshelf, hduration] at hstyles
      -- the duration is not zero, so two offsets at one time are the same
      obtain rfl : offset = offset' :=
        mul_right_cancel₀ hlasts (hclock.symm.trans (hnow.symm.trans hoffset))
      apply hget
      rw [hpending]
      exact h.get?_here hclock hstyles hvalue
    · rw [hduration] at hnow
      rw [hshelf] at hk
      exact h.get?_elsewhere hclock hk hnow hoffset hvalue

/-- Each keyframe of a timeline is a keyframe of its instruction, at its time and with its
styles. -/
theorem exists_keyframe
    (hbounds : ∀ x ∈ s.flush.timeline.times, 0 ≤ x ∧ x ≤ s.flush.timeline.duration)
    {x : ℚ × StyleMap ℚ} (hx : x ∈ s.flush.timeline.shelf) :
    ∃ k ∈ s.toInstruction.keyframes, k.offset * s.toInstruction.duration = x.1 ∧
      ∀ p value, x.2.get? p = some value → k.styles.get? p = some value := by
  obtain ⟨k, hk, rfl⟩ := List.mem_map.1 hx
  obtain ⟨hnonneg, hle⟩ := hbounds k.time (List.mem_map_of_mem hk)
  -- the keyframe as it was before sorting
  let shown : Keyframe ℚ :=
    { offset := if s.flush.timeline.duration == 0 then 0
        else k.time / s.flush.timeline.duration
      easing := k.easing
      styles := s.flush.timeline.backfill.insertAll k.styles.entries }
  have hfraction : shown ∈ s.fractions := List.mem_map.2 ⟨k, hk, rfl⟩
  have hsorted : shown ∈ sortByOffset s.fractions := (perm_sortByOffset _).mem_iff.2 hfraction
  refine ⟨shown, ?_, fraction_mul hnonneg hle, fun p value hvalue => ?_⟩
  · rw [keyframes_toInstruction]
    split
    · exact List.mem_append_left _ hsorted
    · exact hsorted
  · have hget := OrderedMap.get?_insertAll _ s.flush.timeline.backfill k.styles.nodup p
    rw [← OrderedMap.get?_eq_lookup, show k.styles.get? p = some value from hvalue,
      Option.some_or] at hget
    exact hget

end Scene

/-! ### Walks -/

namespace Walk

variable {w : Walk ℚ}

theorem landed_keyframe (hv : w.Valid)
    (h : w.timeline.Landed duration w.scope.options.params done) (hlasts : duration ≠ 0)
    {step : StyleStep ℚ} {offset : ℚ} (hle : w.timeline.duration ≤ offset * duration)
    (hplain : .wildcard ∉ step.entries) :
    (w.keyframe w.scope.timeline duration step offset).timeline.Landed duration
      w.scope.options.params (done ++ [(step, offset)]) := by
  let moved := w.edit (Scene.forwardTo (offset * duration))
  let written := moved.writeAt w.scope.timeline step.entries step.easing
  have hid : w.scope.timeline < moved.score.timelines.length := by
    rw [show moved.score.timelines.length = w.score.timelines.length from
      Score.length_timelines_edit _ _ _]
    exact hv.timeline
  have hid' : w.scope.timeline < written.score.timelines.length := by
    rw [show written.score.timelines.length = moved.score.timelines.length from
      Score.length_timelines_edit moved.score w.scope.timeline
        fun s => (s.setStyles step.entries step.easing w.scope.options.params).1]
    exact hid
  have hmoved : moved.timeline =
      ((w.score.scene w.scope.timeline).forwardTo (offset * duration)).timeline :=
    Score.timeline_edit_self _ hv.timeline
  have hwritten : written.timeline = ((moved.score.scene w.scope.timeline).setStyles
      step.entries step.easing w.scope.options.params).1.timeline :=
    Score.timeline_edit_self
      (fun s => (s.setStyles step.entries step.easing w.scope.options.params).1) hid
  have hfinished : (w.keyframe w.scope.timeline duration step offset).timeline =
      (written.score.scene w.scope.timeline).flush.timeline :=
    Score.timeline_edit_self Scene.flush hid'
  rw [hfinished]
  refine Scene.landed_flush (s := moved.score.scene w.scope.timeline) ?_ hlasts ?_ hplain hwritten
  · show moved.timeline.Landed duration w.scope.options.params done
    rw [hmoved]
    exact Scene.landed_forwardTo h hle
  · show moved.timeline.duration = offset * duration
    rw [hmoved, Scene.duration_forwardTo]

/-- Keyframes in ascending order land one after another. -/
theorem landed_playKeyframes (hlasts : duration ≠ 0) {steps : List (StyleStep ℚ × ℚ)}
    (hascending : (steps.map fun step => step.2 * duration).Pairwise (· ≤ ·))
    (hplain : ∀ step ∈ steps, .wildcard ∉ step.1.entries) (hv : w.Valid)
    (hfirst : ∀ step ∈ steps, w.timeline.duration ≤ step.2 * duration)
    (h : w.timeline.Landed duration w.scope.options.params done) :
    (w.playKeyframes duration steps).timeline.Landed duration w.scope.options.params
        (done ++ steps) ∧
      (w.playKeyframes duration steps).timeline.start = w.timeline.start := by
  -- on the keyframes, each of which finds the clock at the one before
  induction steps generalizing w done with
  | nil =>
    rw [List.append_nil]
    exact ⟨h, rfl⟩
  | cons step steps ih =>
    rw [List.map_cons, List.pairwise_cons] at hascending
    rw [List.forall_mem_cons] at hplain hfirst
    obtain ⟨hstart, hduration⟩ := clock_keyframe hv duration step.1 step.2
    have hstep := landed_keyframe hv h hlasts hfirst.1 hplain.1
    have heffect : Effect w (w.keyframe w.scope.timeline duration step.1 step.2) :=
      Effect.compositional.playKeyframes duration [step] w
    obtain ⟨hlanded, hsame⟩ := ih hascending.2 hplain.2 (heffect.valid hv)
      (fun later hlater =>
        hduration.trans_le (hascending.1 _ (List.mem_map.2 ⟨later, hlater, rfl⟩))) hstep
    rw [List.append_assoc] at hlanded
    exact ⟨hlanded, hsame.trans hstart⟩

/-- The keyframes of a step are played on the timeline that is entered for them. -/
theorem timeline_openKeyframes (timings : Timings ℚ) (w : Walk ℚ) :
    (w.openKeyframes timings).scope.timeline = w.score.timelines.length :=
  enter_timeline w none w.scope.element

/-- It starts where the clock stands, with nothing on it. -/
theorem landed_openKeyframes (timings : Timings ℚ) (w : Walk ℚ) :
    (w.openKeyframes timings).timeline.Landed duration params [] := by
  obtain ⟨hid, lineage, element, own, hnew⟩ := begins_enter none w.scope.element w
  have hopen : (w.openKeyframes timings).timeline =
      { (w.enter none w.scope.element).timeline with easing := timings.easing } :=
    Score.timeline_edit_self (Scene.onTimeline ({ · with easing := timings.easing })) hid
  rw [hopen, hnew]
  exact Timeline.landed_begin lineage element w.currentTime own timings.easing

theorem landed_keyframes {timings : Timings ℚ} (hduration : 0 < timings.duration)
    {steps : List (StyleStep ℚ)} (hvalid : validateKeyframes steps = .ok ())
    (hplain : ∀ step ∈ steps, .wildcard ∉ step.entries) (hv : w.Valid) :
    let played := (w.openKeyframes timings).playKeyframes timings.duration
      (steps.zip (resolvedOffsets steps))
    played.timeline.Landed timings.duration w.scope.options.params
        (steps.zip (resolvedOffsets steps)) ∧
      played.timeline.start = w.currentTime := by
  obtain ⟨hascending, hshares⟩ := shares_of_validateKeyframes hvalid hduration.le
  obtain ⟨hstart, hclock⟩ := clock_openKeyframes timings w
  have hopen : Effect (w.enter none w.scope.element) (w.openKeyframes timings) :=
    Effect.change _ (.ease timings.easing)
  obtain ⟨hlanded, hsame⟩ := landed_playKeyframes hduration.ne' hascending
    (fun step hstep => hplain _ (List.of_mem_zip hstep).1)
    (hopen.valid (hv.enter none w.scope.element))
    (fun step hstep => hclock.trans_le (hshares step hstep).1) (landed_openKeyframes timings w)
  exact ⟨hlanded, hsame.trans hstart⟩

/-- Nothing else happens to that timeline in the step. -/
theorem timeline_keyframes (hv : w.Valid) {timings : Timings ℚ}
    (ht : w.scope.timings = some timings) (steps : List (StyleStep ℚ)) :
    let id := (w.openKeyframes timings).scope.timeline
    id < (w.keyframes steps).scope.timeline ∧
      (w.keyframes steps).score.timeline id = ((w.openKeyframes timings).playKeyframes
        timings.duration (steps.zip (resolvedOffsets steps))).timeline := by
  intro id
  let played := (w.openKeyframes timings).playKeyframes timings.duration
    (steps.zip (resolvedOffsets steps))
  let left := leave w.scope played
  have hopen : (w.openKeyframes timings).Valid :=
    (Effect.change _ (.ease timings.easing)).valid (hv.enter none w.scope.element)
  have hplayed : Effect (w.openKeyframes timings) played :=
    Effect.compositional.playKeyframes _ _ _
  have hline : played.scope.timeline = id := by
    rw [scope_playKeyframes]
  have hid : id < left.score.timelines.length :=
    Nat.lt_of_lt_of_le hopen.timeline hplayed.length_le
  -- the timeline of the keyframes is not the one on which the scope goes on
  have houter : id ≠ left.scope.timeline := by
    show (w.openKeyframes timings).scope.timeline ≠ w.scope.timeline
    rw [timeline_openKeyframes]
    exact (Nat.ne_of_lt hv.timeline).symm
  let gathered := left.gather [played.scope.timeline]
  have hgather : Effect left gathered := Effect.compositional.gather _ _
  let next := gathered.renew (some (w.currentTime + timings.duration))
  have hnext : Effect left next := hgather.trans (effect_renew _ _)
  rw [keyframes_eq ht]
  show id < next.scope.timeline ∧ next.score.timeline id = played.timeline
  constructor
  · rw [show next.scope.timeline = gathered.score.timelines.length from renew_timeline _ _]
    exact Nat.lt_of_lt_of_le hid hgather.length_le
  · rw [hnext.timeline_eq hid houter, timeline, hline]
    rfl

/-- Final styles go to a timeline that an animation without styles has moved. -/
theorem timeline_finish {id : TimelineId} (h : (w.score.timeline id).emptyStep = none)
    (root : ElementId) (setup : Setup ℚ) :
    (w.finish root setup).score.timeline id = w.score.timeline id := by
  unfold finish
  split
  · rfl
  · split
    · next final hfinal =>
      -- an empty step is needed for that, and there was none
      have hne : final ≠ id := by
        rintro rfl
        obtain ⟨-, -, hempty⟩ := Score.animated_of_finalTimeline? hfinal
        rw [h] at hempty
        cases hempty
      exact Score.timeline_edit_of_ne
        (fun s => (s.setStyles [.values setup.finalStyles] none w.scope.options.params).1) hne
    · rfl

end Walk

end Landed

/-! ### Runs -/

/-- The timeline on which an animated step plays its keyframes stays as it is when they are
done. -/
theorem Visit.timeline_animate {setting : Setting ℚ} {tree : Animation ℚ} {w v : Walk ℚ}
    {timings : Timings ℚ} {steps : List (StyleStep ℚ)}
    (h : Visit setting tree w (.animate (.fixed timings) (.keyframes steps)) v) (hw : w.Valid) :
    let opened := (v.openAnimate timings).openKeyframes timings
    (tree.body setting w).score.timeline opened.scope.timeline =
      (opened.playKeyframes timings.duration (steps.zip (resolvedOffsets steps))).timeline := by
  intro opened
  have hopened : (v.openAnimate timings).Valid :=
    (Walk.Effect.compositional.openAnimate timings v).valid (h.valid hw)
  obtain ⟨hlt, htimeline⟩ := Walk.timeline_keyframes hopened
    (Walk.timings_openAnimate timings v) steps
  have hge : v.score.timelines.length ≤ opened.scope.timeline := by
    rw [Walk.timeline_openKeyframes, Walk.length_openAnimate]
  exact (h.timeline_eq hw hge hlt).trans htimeline

/-- **Keyframes land where they were declared.**  Every step of valid keyframes has a keyframe at
its own part of the duration, counted from the end of the delay, and for every property of the step
it shows the value that was declared last at this offset.  The scope goes on when the duration is
over. -/
theorem keyframes_land {host : Host} {root : ElementId} {tree : Animation ℚ} {setup : Setup ℚ}
    {delegated : InstructionMap ℚ} {timings : Timings ℚ} {steps : List (StyleStep ℚ)} {v : Walk ℚ}
    (h : Visit (setup.setting host delegated) tree (.start root setup [])
      (.animate (.fixed timings) (.keyframes steps)) v)
    (hnow : 0 ≤ v.currentTime) (hduration : 0 < timings.duration) (hdelay : 0 ≤ timings.delay)
    (hvalid : validateKeyframes steps = .ok ())
    (hplain : ∀ step ∈ steps, .wildcard ∉ step.entries) :
    let setting := setup.setting host delegated
    let run := Walk.run setting root tree setup []
    let entry : Entry ℚ :=
      .timeline ((v.openAnimate timings).openKeyframes timings).scope.timeline
    let i := (run.finish root setup).score.instruction entry
    let played := steps.zip (resolvedOffsets steps)
    (entry ∈ run.score.animated → i ∈ (compile host root tree setup delegated).instructions) ∧
      (∀ s ∈ played, ∃ k ∈ i.keyframes,
        i.delay + k.offset * i.duration =
            v.currentTime + timings.delay + s.2 * timings.duration ∧
          ∀ values, .values values ∈ s.1.entries → ∀ p ∈ values.keys,
            ∃ value, declaredAt p s.2 played = some value ∧
              k.styles.get? p = some (value.interpolate v.scope.options.params).1) ∧
      ((Animation.animate (.fixed timings) (.keyframes steps)).body setting v).currentTime =
        v.currentTime + timings.delay + timings.duration := by
  intro setting run entry i played
  have hw : (Walk.start root setup []).Valid := Walk.valid_start root setup []
  have hv : v.Valid := h.valid hw
  let u := v.openAnimate timings
  let t := ((u.openKeyframes timings).playKeyframes timings.duration played).timeline
  have hu : u.Valid := (Walk.Effect.compositional.openAnimate timings v).valid hv
  have hparams : u.scope.options.params = v.scope.options.params := by
    simp only [u, Walk.openAnimate]
    split <;> rfl
  obtain ⟨hlanded, hstart⟩ := Walk.landed_keyframes hduration hvalid hplain hu
  rw [hparams] at hlanded
  rw [show u.currentTime = v.currentTime + timings.delay from
    Walk.currentTime_openAnimate hv hdelay] at hstart
  -- when the keyframes are done their timeline is not touched again
  have hrun : run.score.timeline (u.openKeyframes timings).scope.timeline = t :=
    h.timeline_animate hw
  have hfinish : (run.finish root setup).score.timeline (u.openKeyframes timings).scope.timeline =
      t := by
    rw [Walk.timeline_finish (hrun ▸ hlanded.emptyStep), hrun]
  let scene := (run.finish root setup).score.scene (u.openKeyframes timings).scope.timeline
  have hscene : scene.flush.timeline = t := by
    rw [Scene.flush_of_empty (by rw [show scene.timeline = t from hfinish]; exact hlanded.pending)]
    exact hfinish
  have hbounds : ∀ x ∈ scene.flush.timeline.times, 0 ≤ x ∧ x ≤ scene.flush.timeline.duration := by
    rw [hscene]
    exact hlanded.bounds
  have hbegin : i.delay = v.currentTime + timings.delay :=
    (congrArg Timeline.start hscene).trans hstart
  refine ⟨fun hentry => instruction_mem_instructions hentry, fun s hs => ?_, ?_⟩
  · -- the keyframe at the share of the step is on the shelf
    obtain ⟨x, hx, htime⟩ : ∃ x ∈ t.shelf, x.1 = s.2 * timings.duration := by
      have hmem := hlanded.times s hs
      rw [← Timeline.map_fst_shelf] at hmem
      exact List.mem_map.1 hmem
    obtain ⟨k, hk, hoffset, hstyles⟩ := Scene.exists_keyframe hbounds (hscene ▸ hx)
    refine ⟨k, hk, ?_, fun values hvalues p hp => ?_⟩
    · rw [hbegin, ← htime]
      exact congrArg (v.currentTime + timings.delay + ·) hoffset
    · obtain ⟨value, hvalue⟩ := exists_declaredAt hs hvalues hp
      exact ⟨value, hvalue, hstyles p _ (hlanded.shelf x hx p s.2 value htime hvalue)⟩
  · rw [add_assoc]
    exact Walk.currentTime_animate hv hnow hduration.le hdelay (.keyframes steps)

/-- Two keyframes at a quarter of the time, and one in the middle. -/
def flicker : List (StyleStep ℚ) :=
  [.atOffset (1 / 4) [("a", .number 0), ("b", .number 5)], .atOffset (1 / 4) [("a", .number 1)],
    .atOffset (1 / 2) [("a", .number 2)]]

/-- They come after another step and a delay. -/
def flickerAfterFade : Animation ℚ :=
  .sequence [fadeIn, .animate (.fixed ⟨100, 20, none⟩) (.keyframes flicker)] none

/-- The first two make a single keyframe of an instruction that takes half of the time. -/
theorem keyframes_land_flicker :
    let setting := (Setup.standard : Setup ℚ).setting (fun _ _ _ => []) ∅
    let v := fadeIn.body setting (Walk.start ⟨1⟩ .standard [])
    let run := Walk.run setting ⟨1⟩ flickerAfterFade .standard []
    let entry : Entry ℚ :=
      .timeline ((v.openAnimate ⟨100, 20, none⟩).openKeyframes ⟨100, 20, none⟩).scope.timeline
    let i := (run.finish ⟨1⟩ .standard).score.instruction entry
    Visit setting flickerAfterFade (Walk.start ⟨1⟩ .standard [])
        (.animate (.fixed ⟨100, 20, none⟩) (.keyframes flicker)) v ∧
      0 ≤ v.currentTime ∧ validateKeyframes flicker = .ok () ∧
      (∀ step ∈ flicker, .wildcard ∉ step.entries) ∧
      i ∈ (compile (fun _ _ _ => []) ⟨1⟩ flickerAfterFade .standard ∅).instructions ∧
      i.delay = 120 ∧ i.duration = 50 ∧ i.keyframes.length = 3 ∧
      ∃ k ∈ i.keyframes, i.delay + k.offset * i.duration = 145 ∧
        k.styles.get? "a" = some (.literal (.number 1)) ∧
          k.styles.get? "b" = some (.literal (.number 5)) := by
  intro setting v run entry i
  have hvisit : Visit setting flickerAfterFade (Walk.start ⟨1⟩ .standard [])
      (.animate (.fixed ⟨100, 20, none⟩) (.keyframes flicker)) v := by
    have hstep : Visit setting (.sequence ([fadeIn] ++
        .animate (.fixed ⟨100, 20, none⟩) (.keyframes flicker) :: []) none)
        (Walk.start ⟨1⟩ .standard []) (.animate (.fixed ⟨100, 20, none⟩) (.keyframes flicker)) v :=
      .step (.here _ _)
    exact hstep
  have htime : v.currentTime = 100 := by decide +kernel
  have hnow : 0 ≤ v.currentTime := by
    rw [htime]
    norm_num
  have hvalid : validateKeyframes flicker = .ok () := by decide +kernel
  have hplain : ∀ step ∈ flicker, .wildcard ∉ step.entries := by decide +kernel
  obtain ⟨hemitted, hland, -⟩ :=
    keyframes_land hvisit hnow (by norm_num) (by norm_num) hvalid hplain
  have hanimated : entry ∈ run.score.animated := by decide +kernel
  refine ⟨hvisit, hnow, hvalid, hplain, hemitted hanimated, ?_, ?_, ?_, ?_⟩
  · decide +kernel
  · decide +kernel
  · decide +kernel
  · -- the first step declares both properties, and the second one replaces the value of one
    let values : StyleMap ℚ := .ofList [("a", .literal (.number 0)), ("b", .literal (.number 5))]
    have hfirst : (StyleStep.atOffset (1 / 4) [("a", .number 0), ("b", .number 5)], 1 / 4) ∈
        flicker.zip (resolvedOffsets flicker) := by decide +kernel
    obtain ⟨k, hk, hoffset, hstyles⟩ := hland _ hfirst
    have hvalues : .values values ∈
        (StyleStep.atOffset (1 / 4) [("a", .number 0), ("b", .number 5)]).entries := by
      decide +kernel
    obtain ⟨a, ha, hka⟩ := hstyles values hvalues "a" (by decide)
    obtain ⟨b, hb, hkb⟩ := hstyles values hvalues "b" (by decide)
    have ha' : declaredAt "a" (1 / 4) (flicker.zip (resolvedOffsets flicker)) =
        some (.literal (.number 1)) := by decide +kernel
    have hb' : declaredAt "b" (1 / 4) (flicker.zip (resolvedOffsets flicker)) =
        some (.literal (.number 5)) := by decide +kernel
    obtain rfl := Option.some.inj (ha.symm.trans ha')
    obtain rfl := Option.some.inj (hb.symm.trans hb')
    refine ⟨k, hk, ?_, hka, hkb⟩
    refine hoffset.trans ?_
    rw [htime]
    norm_num

end Choreography
