/-
Choreography/Proofs/Clock.lean

Clocks that only go forward, over exact times.

A timeline is `Clocked` if its keyframes are at different times between zero and what its
clock shows, and both ends are among them.  This is what the offsets of the finished
keyframes depend on.  It survives every change that does not turn the clock back
(`Change.Forward`, `Scene.onward_change`), and such a change moves neither the start nor the
current time of a timeline to an earlier one.

For a whole score there is in addition something to be said about placements, which are
final: what it is depends on the purpose, so it is a parameter.
-/
import Choreography.Proofs.Operation
import Choreography.Quantity.Exact

namespace Choreography

/-! ### Timelines -/

namespace Timeline

/-- The keyframes are at different times from zero to what the clock shows. -/
structure Clocked (t : Timeline ℚ) : Prop where
  start : 0 ≤ t.start
  zero : 0 ∈ t.times
  nodup : t.times.Nodup
  bounds : ∀ x ∈ t.times, 0 ≤ x ∧ x ≤ t.duration
  now : t.duration ∈ t.times

theorem Clocked.of_skeleton_eq {t t' : Timeline ℚ} (h : t.Clocked)
    (he : t'.skeleton = t.skeleton) : t'.Clocked := by
  have hs : t'.start = t.start := congrArg Skeleton.start he
  have hd : t'.duration = t.duration := congrArg Skeleton.duration he
  have ht : t'.times = t.times := congrArg Skeleton.times he
  constructor
  · rw [hs]
    exact h.start
  · rw [ht]
    exact h.zero
  · rw [ht]
    exact h.nodup
  · rw [ht, hd]
    exact h.bounds
  · rw [ht, hd]
    exact h.now

/-- The clock is never before zero. -/
theorem Clocked.duration_nonneg {t : Timeline ℚ} (h : t.Clocked) : 0 ≤ t.duration :=
  (h.bounds _ h.now).1

theorem Clocked.start_le_currentTime {t : Timeline ℚ} (h : t.Clocked) :
    t.start ≤ t.currentTime :=
  le_add_of_nonneg_right h.duration_nonneg

theorem Clocked.currentTime_nonneg {t : Timeline ℚ} (h : t.Clocked) : 0 ≤ t.currentTime :=
  h.start.trans h.start_le_currentTime

theorem clocked_begin (lineage : Nat) (element : ElementId) {start : ℚ}
    (own : Option (StyleMap ℚ)) (h : 0 ≤ start) : (begin lineage element start own).Clocked where
  start := h
  zero := List.mem_singleton_self _
  nodup := List.nodup_singleton _
  bounds x hx := by
    rw [List.mem_singleton.1 hx]
    exact ⟨le_rfl, le_rfl⟩
  now := List.mem_singleton_self _

/-- Loading a keyframe makes sure that there is one at the time of the clock. -/
theorem keyframes_loadKeyframe (t : Timeline ℚ) :
    t.loadKeyframe.keyframes =
      if t.duration ∈ t.times then t.keyframes else t.keyframes ++ [⟨t.duration, none, ∅⟩] := by
  simp only [loadKeyframe]
  -- a keyframe is found by its time, or none has that time
  cases h : t.keyframes.findIdx? (·.time == t.duration) with
  | some i =>
    have hmem : t.duration ∈ t.times := by
      have hsome : (t.keyframes.findIdx? (·.time == t.duration)).isSome := by rw [h]; rfl
      rw [List.findIdx?_isSome, List.any_eq_true] at hsome
      obtain ⟨k, hk, he⟩ := hsome
      exact List.mem_map.2 ⟨k, hk, eq_of_beq he⟩
    rw [if_pos hmem]
  | none =>
    have hmem : t.duration ∉ t.times := by
      rw [List.findIdx?_eq_none_iff] at h
      intro hmem
      obtain ⟨k, hk, he⟩ := List.mem_map.1 hmem
      simpa [he] using h k hk
    rw [if_neg hmem]

theorem times_loadKeyframe (t : Timeline ℚ) :
    t.loadKeyframe.times = if t.duration ∈ t.times then t.times else t.times ++ [t.duration] := by
  rw [times, keyframes_loadKeyframe]
  split
  · rfl
  · rw [List.map_append]
    rfl

/-- If the clock is not turned back then no keyframe is after it. -/
theorem bounds_loadKeyframe {t : Timeline ℚ} (hnow : t.duration ∈ t.times)
    (hbounds : ∀ x ∈ t.times, 0 ≤ x ∧ x ≤ t.duration) {time : ℚ} (hle : t.duration ≤ time) :
    ∀ x ∈ { t with duration := time }.loadKeyframe.times,
      0 ≤ x ∧ x ≤ { t with duration := time }.loadKeyframe.duration := by
  have hold : ∀ x ∈ t.times, 0 ≤ x ∧ x ≤ time :=
    fun x hx => ⟨(hbounds x hx).1, (hbounds x hx).2.trans hle⟩
  rw [times_loadKeyframe, duration_loadKeyframe]
  split
  · exact hold
  · exact List.forall_mem_append.2
      ⟨hold, List.forall_mem_singleton.2 ⟨(hbounds _ hnow).1.trans hle, le_rfl⟩⟩

/-- A clock that is not turned back may be set. -/
theorem Clocked.loadKeyframe {t : Timeline ℚ} (h : t.Clocked) {time : ℚ}
    (ht : t.duration ≤ time) : { t with duration := time }.loadKeyframe.Clocked := by
  have htimes := times_loadKeyframe { t with duration := time }
  have hbounds := bounds_loadKeyframe h.now h.bounds ht
  have hduration : { t with duration := time }.loadKeyframe.duration = time :=
    duration_loadKeyframe _
  have hstart : 0 ≤ { t with duration := time }.loadKeyframe.start := by
    rw [start_loadKeyframe]
    exact h.start
  change { t with duration := time }.loadKeyframe.times =
    if time ∈ t.times then t.times else t.times ++ [time] at htimes
  by_cases hmem : time ∈ t.times
  · -- the clock goes to a keyframe that is there
    rw [if_pos hmem] at htimes
    refine ⟨hstart, htimes ▸ h.zero, htimes ▸ h.nodup, hbounds, ?_⟩
    rw [htimes, hduration]
    exact hmem
  · -- a keyframe is added behind the others
    rw [if_neg hmem] at htimes
    refine ⟨hstart, ?_, ?_, hbounds, ?_⟩
    · rw [htimes]
      exact List.mem_append_left _ h.zero
    · rw [htimes, List.nodup_append]
      refine ⟨h.nodup, List.nodup_singleton _, ?_⟩
      intro a ha b hb
      rw [List.mem_singleton] at hb
      rintro rfl
      exact hmem (hb ▸ ha)
    · rw [htimes, hduration]
      exact List.mem_append_right _ (List.mem_singleton_self _)

/-- One timeline is the other one at a later time. -/
structure Onward (t t' : Timeline ℚ) : Prop where
  clocked : t'.Clocked
  start_le : t.start ≤ t'.start
  time_le : t.currentTime ≤ t'.currentTime

/-- Without a change of the skeleton no time has passed. -/
theorem Clocked.onward_of_skeleton_eq {t t' : Timeline ℚ} (h : t.Clocked)
    (he : t'.skeleton = t.skeleton) : t.Onward t' :=
  ⟨h.of_skeleton_eq he, le_of_eq (congrArg Skeleton.start he).symm,
    le_of_eq (currentTime_eq_of_skeleton_eq he).symm⟩

end Timeline

/-! ### Changes -/

/-- Whether a change does not turn back the clock of a timeline. -/
def Change.Forward (t : Timeline ℚ) : Change ℚ → Prop
  | .moveTo time => t.duration ≤ time
  | .delay time => 0 ≤ time
  | _ => True

namespace Scene

/-- To move on to a later time keeps the clock in order. -/
theorem onward_forwardTo {s : Scene ℚ} (h : s.timeline.Clocked) {time : ℚ}
    (ht : s.timeline.duration ≤ time) : s.timeline.Onward (s.forwardTo time).timeline where
  clocked := by
    have hflush := h.of_skeleton_eq s.skeleton_flush
    have hduration : s.flush.timeline.duration = s.timeline.duration :=
      congrArg Skeleton.duration s.skeleton_flush
    exact hflush.loadKeyframe (hduration.le.trans ht)
  start_le := (start_forwardTo s time).ge
  time_le := by
    rw [currentTime_forwardTo]
    exact (add_le_add_iff_left _).2 ht

/-- A delay moves the current time by just that delay. -/
theorem currentTime_delayNextStep (s : Scene ℚ) (time : ℚ) :
    (s.delayNextStep time).timeline.currentTime = s.timeline.currentTime + time := by
  have hforward : (s.forwardTo (s.timeline.duration + time)).timeline.currentTime =
      s.timeline.currentTime + time := by
    rw [currentTime_forwardTo]
    exact (add_assoc _ _ _).symm
  simp only [delayNextStep]
  -- a clock that has run is moved on, and else the start is
  split
  · split
    · rw [Timeline.currentTime_eq_of_skeleton_eq (skeleton_snapshot _), hforward]
    · exact hforward
  · show s.timeline.start + time + s.timeline.duration = s.timeline.start + s.timeline.duration + time
    exact add_right_comm _ _ _

/-- A delay that is not negative goes forward, whether the clock moves or the start. -/
theorem onward_delayNextStep {s : Scene ℚ} (h : s.timeline.Clocked) {time : ℚ} (ht : 0 ≤ time) :
    s.timeline.Onward (s.delayNextStep time).timeline := by
  have hforward := onward_forwardTo h (le_add_of_nonneg_right (a := s.timeline.duration) ht)
  have htime : s.timeline.currentTime ≤ (s.delayNextStep time).timeline.currentTime := by
    rw [currentTime_delayNextStep]
    exact le_add_of_nonneg_right ht
  simp only [delayNextStep] at htime ⊢
  split
  · split
    · have hsnapshot := hforward.clocked.onward_of_skeleton_eq
        (skeleton_snapshot (s.forwardTo (s.timeline.duration + time)))
      exact ⟨hsnapshot.clocked, hforward.start_le.trans hsnapshot.start_le,
        hforward.time_le.trans hsnapshot.time_le⟩
    · exact hforward
  · have hstart : s.timeline.start ≤ s.timeline.start + time := le_add_of_nonneg_right ht
    refine ⟨⟨h.start.trans hstart, h.zero, h.nodup, h.bounds, h.now⟩, hstart, ?_⟩
    show s.timeline.start + s.timeline.duration ≤ s.timeline.start + time + s.timeline.duration
    exact (add_le_add_iff_right _).2 hstart

/-- A change that does not turn back the clock keeps it in order. -/
theorem onward_change {s : Scene ℚ} {c : Change ℚ} (h : s.timeline.Clocked)
    (hc : c.Forward s.timeline) : s.timeline.Onward (s.change c).timeline := by
  -- three changes move the clock, and the others write styles
  cases c with
  | ease easing => exact h.onward_of_skeleton_eq rfl
  | nextFrame =>
    have hle : s.timeline.duration ≤ s.timeline.duration + oneFrame :=
      le_add_of_nonneg_right (zero_le_one : (0 : ℚ) ≤ 1)
    have hstart : s.timeline.forwardFrame.start = s.timeline.start := Timeline.start_loadKeyframe _
    have hduration : s.timeline.forwardFrame.duration = s.timeline.duration + oneFrame :=
      Timeline.duration_loadKeyframe _
    refine ⟨h.loadKeyframe hle, hstart.ge, ?_⟩
    show s.timeline.currentTime ≤ s.timeline.forwardFrame.currentTime
    rw [Timeline.currentTime, Timeline.currentTime, hstart, hduration]
    exact (add_le_add_iff_left _).2 hle
  | moveTo time => exact onward_forwardTo h hc
  | delay time => exact onward_delayNextStep h hc
  | write entries easing params =>
    exact h.onward_of_skeleton_eq (skeleton_setStyles s entries easing params)
  | emptyStep easing => exact h.onward_of_skeleton_eq (skeleton_setEmptyStep s easing)
  | flush => exact h.onward_of_skeleton_eq (skeleton_flush s)
  | snapshot => exact h.onward_of_skeleton_eq (skeleton_snapshot s)

end Scene

/-! ### Scores -/

namespace Score

/-- Every timeline of a score is clocked, and every placement is as it should be. -/
structure Clocked (D : Placement ℚ → Prop) (s : Score ℚ) : Prop where
  timelines : ∀ id, (s.timeline id).Clocked
  placed : ∀ p, .placed p ∈ s.order → D p

variable {D : Placement ℚ → Prop} {s : Score ℚ}

/-- One timeline is changed, and the others stay. -/
theorem Clocked.edit (h : s.Clocked D) {id : TimelineId} {f : Scene ℚ → Scene ℚ}
    (hf : (f (s.scene id)).timeline.Clocked) : (s.edit id f).Clocked D where
  timelines id' := timeline_edit_induct (P := Timeline.Clocked) (fun _ => hf) (h.timelines id')
  placed := h.placed

/-- A new timeline is clocked if it does not start before zero. -/
theorem Clocked.enter (h : s.Clocked D) (lineage : Nat) (element : ElementId) {start : ℚ}
    (hs : 0 ≤ start) : (s.enter lineage element start).2.Clocked D where
  timelines id := by
    rcases Nat.lt_trichotomy id s.timelines.length with hlt | rfl | hgt
    · rw [timeline_enter_of_lt lineage element start hlt]
      exact h.timelines id
    · rw [timeline_enter_self]
      exact Timeline.clocked_begin _ _ _ hs
    · -- there is no such timeline
      have hnone : (s.enter lineage element start).2.timeline id = .begin 0 default 0 none := by
        rw [timeline, List.getD_eq_default]
        rw [length_timelines_enter]
        exact hgt
      rw [hnone]
      exact Timeline.clocked_begin _ _ _ le_rfl
  placed p hp := by
    rw [order_enter, List.mem_append] at hp
    rcases hp with hp | hp
    · exact h.placed p hp
    · rw [List.mem_singleton] at hp
      cases hp

/-- A fork starts at a given time, or where the other timeline stands. -/
theorem Clocked.fork (h : s.Clocked D) (id : TimelineId) (element : ElementId) {at? : Option ℚ}
    (hat : ∀ time, at? = some time → 0 ≤ time) : (s.fork id element at?).2.Clocked D := by
  rw [fork_eq]
  refine (h.edit ((h.timelines id).of_skeleton_eq (Scene.skeleton_flush _))).enter _ _ ?_
  have hnow := (h.timelines id).currentTime_nonneg
  cases at? with
  | none => exact hnow
  | some time =>
    simp only [forkTime]
    split
    · exact hat time rfl
    · exact hnow

theorem Clocked.place (h : s.Clocked D) {p : Placement ℚ} (hp : D p) : (s.place p).Clocked D where
  timelines := h.timelines
  placed q hq := by
    rcases List.mem_append.1 hq with hq | hq
    · exact h.placed q hq
    · rw [List.mem_singleton] at hq
      cases hq
      exact hp

/-- When an entry begins. -/
def begins (s : Score ℚ) : Entry ℚ → ℚ
  | .timeline id => (s.timeline id).start
  | .placed p => p.delay

/-- When an entry is over. -/
def ends (s : Score ℚ) : Entry ℚ → ℚ
  | .timeline id => (s.timeline id).currentTime
  | .placed p => p.delay + p.duration

end Score

end Choreography
