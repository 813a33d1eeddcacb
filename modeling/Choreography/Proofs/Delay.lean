/-
Choreography/Proofs/Delay.lean

What a delay moves.

A delay moves the clock by just its time, and there are two ways to do so.  Either the clock
goes on, and every keyframe stays at its time; or the start of the timeline is moved, and every
keyframe moves along with it.  The second one is meant for timelines on which nothing has
happened yet.  Whether it is taken depends on what the clock shows, the number of keyframes and
the styles in wait, so it is also taken when the clock shows zero and a keyframe has been
finished there.

A style in wait has a keyframe as well: the one that the clock was at when it was queued
(`Score.queuedAfter`).  It is one that is there (`Score.queued_performAll`), but not always the one
that the style ends up on.

Main result: `delay_keeps_iff`.
-/
import Choreography.Proofs.Integrity
import Choreography.Proofs.Written

namespace Choreography

/-! ### Queued styles -/

namespace Timeline

/-- Whether a style waits for the only keyframe. -/
def hasLoneStyle {τ : Type} (t : Timeline τ) : Bool :=
  t.keyframes.length = 1 && !t.pending.isEmpty

end Timeline

namespace Scene

/-- The properties that a change queues for the keyframe at which it leaves the clock. -/
def queues {τ : Type} (s : Scene τ) : Change τ → List String
  | .write entries _ _ => (flatten s.shared entries).keys
  | .snapshot => s.known.keys
  | .delay _ => if s.timeline.hasLoneStyle then s.known.keys else []
  | _ => []

section Pending

variable {τ : Type} [Quantity τ] {s : Scene τ} {p : String}

/-- A snapshot queues what is known, and nothing else. -/
theorem mem_pending_snapshot (h : p ∈ s.snapshot.timeline.pending.keys) :
    p ∈ s.timeline.pending.keys ∨ p ∈ s.known.keys := by
  refine snapshot_induct (P := fun u => p ∈ u.timeline.pending.keys →
    p ∈ s.timeline.pending.keys ∨ p ∈ s.known.keys) .inl (fun u hu entry hentry hp => ?_) h
  rcases OrderedMap.mem_keys_insert.1 hp with rfl | hp
  · -- it is this entry of the known values that was queued
    exact .inr (List.mem_map_of_mem hentry)
  · exact hu hp

omit [Quantity τ] in
/-- A flush leaves nothing in wait. -/
theorem mem_pending_flush : p ∉ s.flush.timeline.pending.keys := by
  have hempty := s.pending_flush
  rw [OrderedMap.isEmpty, List.isEmpty_iff] at hempty
  rw [OrderedMap.keys, hempty]
  exact List.not_mem_nil

theorem pending_merge (other : Timeline τ) (s : Scene τ) :
    (s.merge other).timeline.pending = s.timeline.pending := by
  rw [timeline_merge]

theorem pending_loadKeyframe (t : Timeline τ) : t.loadKeyframe.pending = t.pending := by
  simp only [Timeline.loadKeyframe]
  split <;> rfl

theorem own_loadKeyframe (t : Timeline τ) : t.loadKeyframe.own = t.own := by
  simp only [Timeline.loadKeyframe]
  split <;> rfl

/-- A delay decides for the clock or for the start. -/
theorem delayNextStep_eq (time : τ) (s : Scene τ) :
    s.delayNextStep time =
      if s.timeline.duration != 0 || s.timeline.hasLoneStyle then
        if s.timeline.hasLoneStyle then (s.forwardTo (s.timeline.duration + time)).snapshot
        else s.forwardTo (s.timeline.duration + time)
      else s.onTimeline fun t => { t with start := t.start + time } := rfl

/-- To move on makes nothing known. -/
theorem known_forwardTo (time : τ) (s : Scene τ) : (s.forwardTo time).known = s.known := by
  rw [← known_flush s]
  unfold known forwardTo onTimeline
  rw [own_loadKeyframe]

theorem mem_pending_forwardTo (time : τ) : p ∉ (s.forwardTo time).timeline.pending.keys := by
  show p ∉ ({ s.flush.timeline with duration := time } : Timeline τ).loadKeyframe.pending.keys
  rw [pending_loadKeyframe]
  exact mem_pending_flush

/-- Nothing waits that was not queued. -/
theorem mem_pending_change {c : Change τ} (h : p ∈ (s.change c).timeline.pending.keys) :
    p ∈ s.timeline.pending.keys ∨ p ∈ s.queues c := by
  cases c with
  | ease easing => exact .inl h
  | nextFrame =>
    have hload := pending_loadKeyframe
      ({ s.timeline with duration := s.timeline.duration + oneFrame } : Timeline τ)
    exact .inl (hload ▸ h)
  | moveTo time => exact absurd h (mem_pending_forwardTo time)
  | delay time =>
    simp only [change, delayNextStep_eq] at h
    by_cases hlone : s.timeline.hasLoneStyle = true
    · -- a lone style is finished where it is, and what is known is queued after the delay
      rw [if_pos (by rw [hlone, Bool.or_true]), if_pos hlone] at h
      right
      rw [queues, if_pos hlone, ← known_forwardTo (s.timeline.duration + time)]
      exact (mem_pending_snapshot h).resolve_left (mem_pending_forwardTo _)
    · rw [if_neg hlone] at h
      split at h
      · exact absurd h (mem_pending_forwardTo _)
      · exact .inl h
  | write entries easing params =>
    rw [change, setStyles, mem_pending_writeAll] at h
    refine h.imp_left fun hp => ?_
    have hease : (s.timeline.easePrevious easing).pending = s.timeline.pending := by
      unfold Timeline.easePrevious
      split <;> rfl
    exact hease ▸ hp
  | emptyStep easing =>
    have hempty : (s.setEmptyStep easing).timeline.pending = s.timeline.pending := by
      show (s.timeline.easePrevious easing).pending = s.timeline.pending
      unfold Timeline.easePrevious
      split <;> rfl
    exact .inl (hempty ▸ h)
  | flush => exact absurd h mem_pending_flush
  | snapshot => exact mem_pending_snapshot h

end Pending

/-! ### Keyframes stay -/

/-- A keyframe that is added comes last. -/
theorem prefix_times_loadKeyframe (t : Timeline ℚ) : t.times <+: t.loadKeyframe.times := by
  rw [Timeline.times_loadKeyframe]
  split
  · exact List.prefix_refl _
  · exact List.prefix_append _ _

theorem prefix_times_forwardTo (time : ℚ) (s : Scene ℚ) :
    s.timeline.times <+: (s.forwardTo time).timeline.times := by
  have hflush : s.flush.timeline.times = s.timeline.times :=
    congrArg Skeleton.times s.skeleton_flush
  rw [← hflush]
  exact prefix_times_loadKeyframe { s.flush.timeline with duration := time }

/-- No change moves a keyframe on the clock, or takes one away. -/
theorem prefix_times_change (c : Change ℚ) (s : Scene ℚ) :
    s.timeline.times <+: (s.change c).timeline.times := by
  have hskeleton : ∀ {s s' : Scene ℚ}, s'.timeline.skeleton = s.timeline.skeleton →
      s.timeline.times <+: s'.timeline.times := by
    intro s s' h
    have htimes : s'.timeline.times = s.timeline.times := congrArg Skeleton.times h
    exact htimes ▸ List.prefix_refl _
  cases c with
  | ease easing => exact List.prefix_refl _
  | nextFrame =>
    exact prefix_times_loadKeyframe { s.timeline with duration := s.timeline.duration + oneFrame }
  | moveTo time => exact prefix_times_forwardTo time s
  | delay time =>
    simp only [change, delayNextStep]
    split
    · split
      · exact (prefix_times_forwardTo _ s).trans (hskeleton (skeleton_snapshot _))
      · exact prefix_times_forwardTo _ s
    · exact List.prefix_refl _
  | write entries easing params => exact hskeleton (s.skeleton_setStyles entries easing params)
  | emptyStep easing => exact hskeleton (s.skeleton_setEmptyStep easing)
  | flush => exact hskeleton s.skeleton_flush
  | snapshot => exact hskeleton s.skeleton_snapshot

end Scene

/-! ### Runs -/

namespace Score

/-- The keyframe of a timeline that each property was queued for last, after an operation. -/
def queue (id : TimelineId) (s : Score ℚ) (queued : String → Option Nat) :
    Operation ℚ → String → Option Nat
  | .change target c => fun p =>
    if target = id ∧ p ∈ (s.scene id).queues c then
      some ((s.perform (.change target c)).timeline id).current
    else queued p
  | _ => queued

/-- And after several. -/
def queuedAfter (id : TimelineId) :
    Score ℚ → (String → Option Nat) → List (Operation ℚ) → String → Option Nat
  | _, queued, [] => queued
  | s, queued, op :: ops => (s.perform op).queuedAfter id (s.queue id queued op) ops

end Score

/-- Every style in wait was queued for a keyframe that is there. -/
def Timeline.Queued (t : Timeline ℚ) (queued : String → Option Nat) : Prop :=
  ∀ p ∈ t.pending.keys, ∃ i ∈ queued p, i < t.keyframes.length

theorem Timeline.Queued.of_empty {t : Timeline ℚ} (h : t.pending = ∅)
    (queued : String → Option Nat) : t.Queued queued := by
  intro p hp
  rw [h] at hp
  cases hp

/-- A change queues its styles for the keyframe at which it leaves the clock. -/
theorem Scene.queued_change {s : Scene ℚ} {queued : String → Option Nat}
    (h : s.timeline.Queued queued) (hindexed : s.timeline.Indexed) (c : Change ℚ) :
    (s.change c).timeline.Queued fun p =>
      if p ∈ s.queues c then some (s.change c).timeline.current else queued p := by
  intro p hp
  by_cases hqueues : p ∈ s.queues c
  · simp only [if_pos hqueues]
    exact ⟨_, rfl, (indexed_change hindexed c).current_lt⟩
  · simp only [if_neg hqueues]
    -- the property waited before, and its keyframe is still there
    obtain ⟨i, hi, hlt⟩ := h p ((mem_pending_change hp).resolve_right hqueues)
    have hlength := (prefix_times_change c s).length_le
    rw [Timeline.length_times, Timeline.length_times] at hlength
    exact ⟨i, hi, hlt.trans_le hlength⟩

namespace Score

variable {id : TimelineId} {s : Score ℚ} {queued : String → Option Nat}

/-- There is nothing behind a handle that was not given out. -/
theorem timeline_of_length_le (h : s.timelines.length ≤ id) :
    s.timeline id = .begin 0 default 0 none := List.getD_eq_default _ _ h

theorem queued_edit (h : (s.timeline id).Queued queued) {target : TimelineId}
    {f : Scene ℚ → Scene ℚ}
    (hf : (s.timeline target).Queued queued → (f (s.scene target)).timeline.Queued queued) :
    ((s.edit target f).timeline id).Queued queued :=
  timeline_edit_induct (P := fun t => t.Queued queued) hf h

theorem queued_enter (h : (s.timeline id).Queued queued) (lineage : Nat) (element : ElementId)
    (start : ℚ) : ((s.enter lineage element start).2.timeline id).Queued queued := by
  rcases Nat.lt_trichotomy id s.timelines.length with hlt | rfl | hgt
  · rwa [timeline_enter_of_lt lineage element start hlt]
  · rw [timeline_enter_self]
    exact .of_empty rfl queued
  · rw [timeline_of_length_le (by rw [length_timelines_enter]; exact hgt)]
    exact .of_empty rfl queued

/-- An operation queues for keyframes that are there. -/
theorem queued_perform (h : (s.timeline id).Queued queued) (hindexed : (s.timeline id).Indexed)
    (op : Operation ℚ) : ((s.perform op).timeline id).Queued (s.queue id queued op) := by
  -- only a change of the timeline itself queues anything on it
  cases op with
  | begin element start => exact queued_enter (s := { s with lineages := s.lineages + 1 }) h _ _ _
  | fork source element at? =>
    show ((s.fork source element at?).2.timeline id).Queued queued
    rw [fork_eq]
    refine queued_enter (queued_edit h fun _ p hp => ?_) _ _ _
    exact absurd hp Scene.mem_pending_flush
  | change target c =>
    -- a change of another timeline, or of none, leaves this one alone
    by_cases htarget : target = id ∧ id < s.timelines.length
    · obtain ⟨rfl, hid⟩ := htarget
      have hself : (s.perform (.change target c)).timeline target =
          ((s.scene target).change c).timeline := timeline_edit_self _ hid
      simpa only [queue, hself, true_and] using Scene.queued_change h hindexed c
    · have hsame : (s.perform (.change target c)).timeline id = s.timeline id := by
        show (s.edit target _).timeline id = _
        rw [Score.edit, timeline_put, if_neg]
        rintro ⟨rfl, hid⟩
        exact htarget ⟨rfl, hid⟩
      rw [hsame]
      intro p hp
      by_cases hid : id < s.timelines.length
      · have hne : target ≠ id := fun ht => htarget ⟨ht, hid⟩
        simpa only [queue, hne, false_and, if_false] using h p hp
      · rw [timeline_of_length_le (Nat.not_lt.1 hid)] at hp
        cases hp
  | merge into source =>
    show ((s.merge into source).timeline id).Queued queued
    unfold merge
    split
    · exact h
    · refine queued_edit h fun hinto p hp => ?_
      rw [Scene.pending_merge] at hp
      obtain ⟨i, hi, hlt⟩ := hinto p hp
      have htimes : ((s.scene into).merge (s.timeline source)).timeline.times =
          (s.timeline into).times := congrArg Skeleton.times (Scene.skeleton_merge _ _)
      rw [← Timeline.length_times, ← htimes, Timeline.length_times] at hlt
      exact ⟨i, hi, hlt⟩
  | place p => exact h

/-- **What waits after a run was queued for a keyframe that is there.** -/
theorem queued_performAll (h : (s.timeline id).Queued queued)
    (hindexed : ∀ id, (s.timeline id).Indexed) (ops : List (Operation ℚ)) :
    ((s.performAll ops).timeline id).Queued (s.queuedAfter id queued ops) := by
  -- on the operations; what is queued and the score are arbitrary, as each operation changes them
  induction ops generalizing s queued with
  | nil => exact h
  | cons op ops ih =>
    exact ih (queued_perform h (hindexed id) op) (indexed_perform hindexed op)

end Score

/-! ### Where keyframes are -/

namespace Timeline

/-- When a keyframe is, in absolute time. -/
def keyframeTime? (t : Timeline ℚ) (i : Nat) : Option ℚ := t.times[i]?.map (t.start + ·)

/-- Whether there are styles on a keyframe, or some in wait for it. -/
def Placed (t : Timeline ℚ) (queued : String → Option Nat) (i : Nat) : Prop :=
  (∃ k ∈ t.keyframes[i]?, k.styles.isEmpty = false) ∨ ∃ p ∈ t.pending.keys, queued p = some i

/-- Styles are placed on keyframes that are there. -/
theorem Placed.lt {t : Timeline ℚ} {queued : String → Option Nat} {i : Nat}
    (h : t.Placed queued i) (hqueued : t.Queued queued) : i < t.keyframes.length := by
  rcases h with ⟨k, hk, -⟩ | ⟨p, hp, hi⟩
  · exact (List.getElem?_eq_some_iff.1 hk).1
  · obtain ⟨j, hj, hlt⟩ := hqueued p hp
    rw [hi] at hj
    exact Option.some.inj hj ▸ hlt

end Timeline

namespace Scene

variable {s : Scene ℚ}

/-- If the clock goes on the keyframes stay. -/
theorem keyframeTime?_delay_of_elapsed
    (h : s.timeline.duration ≠ 0 ∨ s.timeline.hasLoneStyle = true) (d : ℚ) {i : Nat}
    (hi : i < s.timeline.keyframes.length) :
    (s.delayNextStep d).timeline.keyframeTime? i = s.timeline.keyframeTime? i := by
  have hcond : (s.timeline.duration != 0 || s.timeline.hasLoneStyle) = true := by
    simpa [bne_iff_ne] using h
  have htimes : s.timeline.times <+: (s.delayNextStep d).timeline.times :=
    prefix_times_change (.delay d) s
  have hstart : (s.delayNextStep d).timeline.start = s.timeline.start := by
    rw [delayNextStep_eq, if_pos hcond]
    split
    · exact (congrArg Skeleton.start (skeleton_snapshot _)).trans (start_forwardTo s _)
    · exact start_forwardTo s _
  rw [← Timeline.length_times] at hi
  rw [Timeline.keyframeTime?, Timeline.keyframeTime?, hstart, List.getElem?_eq_getElem hi,
    List.prefix_iff_getElem?.1 htimes i hi]

/-- If the start is moved they move along. -/
theorem keyframeTime?_delay_of_not_elapsed
    (h : ¬(s.timeline.duration ≠ 0 ∨ s.timeline.hasLoneStyle = true)) (d : ℚ) (i : Nat) :
    (s.delayNextStep d).timeline.keyframeTime? i = (s.timeline.keyframeTime? i).map (· + d) := by
  have hcond : ¬(s.timeline.duration != 0 || s.timeline.hasLoneStyle) = true := by
    simpa [bne_iff_ne] using h
  rw [delayNextStep_eq, if_neg hcond]
  show s.timeline.times[i]?.map (s.timeline.start + d + ·) = _
  rw [Timeline.keyframeTime?, Option.map_map]
  exact congrArg (Option.map · _) (funext fun time => add_right_comm _ _ _)

end Scene

/-- **A delay moves the clock by its time, and the styles that are placed stay where they are just
if some time has elapsed, or a lone style waits, or there are none.** -/
theorem delay_keeps_iff (ops : List (Operation ℚ)) (id : TimelineId) {d : ℚ} (hd : 0 < d) :
    let s := ((Score.empty : Score ℚ).performAll ops).scene id
    let queued := (Score.empty : Score ℚ).queuedAfter id (fun _ => none) ops
    (s.delayNextStep d).timeline.currentTime = s.timeline.currentTime + d ∧
      ((∀ i, s.timeline.Placed queued i →
          (s.delayNextStep d).timeline.keyframeTime? i = s.timeline.keyframeTime? i) ↔
        s.timeline.duration ≠ 0 ∨ s.timeline.hasLoneStyle = true ∨
          ∀ i, ¬s.timeline.Placed queued i) := by
  intro s queued
  have hqueued : s.timeline.Queued queued :=
    Score.queued_performAll (s := .empty) (.of_empty rfl _)
      (fun _ => Timeline.indexed_begin _ _ _ _) ops
  refine ⟨s.currentTime_delayNextStep d, ?_⟩
  -- the two cases of the program: the clock goes on, or the start is moved
  by_cases h : s.timeline.duration ≠ 0 ∨ s.timeline.hasLoneStyle = true
  · refine iff_of_true (fun i hi => ?_) (or_assoc.1 (.inl h))
    exact Scene.keyframeTime?_delay_of_elapsed h d (hi.lt hqueued)
  · rw [← or_assoc, or_iff_right h]
    refine forall_congr' fun i => ⟨fun hkeeps hi => ?_, fun hnone hi => absurd hi hnone⟩
    -- in the second case a placed style moves by the delay, which is positive
    have htime := hkeeps hi
    rw [Scene.keyframeTime?_delay_of_not_elapsed h] at htime
    have hlt := hi.lt hqueued
    rw [← Timeline.length_times] at hlt
    simp only [Timeline.keyframeTime?, List.getElem?_eq_getElem hlt, Option.map_some,
      Option.some.injEq, add_eq_left] at htime
    exact hd.ne' htime

/-- A run after which a style waits that was queued for a keyframe that the clock has left, and
one that was queued for the only keyframe of its timeline. -/
def hurried : List (Operation ℚ) :=
  [.begin ⟨1⟩ 10, .fork 0 ⟨2⟩ (some 30),
    .change 0 (.write [.values (.ofList [("a", .literal (.number 1))])] none ∅),
    .change 0 .nextFrame,
    .change 1 (.write [.values (.ofList [("b", .literal (.number 2))])] none ∅)]

example :
    (Score.empty : Score ℚ).queuedAfter 0 (fun _ => none) hurried "a" = some 0 ∧
      (((Score.empty : Score ℚ).performAll hurried).timeline 0).current = 1 := by
  decide +kernel

/-- Both of its timelines keep their styles where they are. -/
theorem delay_keeps_iff_hurried :
    (0 : ℚ) < 50 ∧ ∀ id ∈ [0, 1],
      let s := ((Score.empty : Score ℚ).performAll hurried).scene id
      let queued := (Score.empty : Score ℚ).queuedAfter id (fun _ => none) hurried
      (s.delayNextStep 50).timeline.currentTime = s.timeline.currentTime + 50 ∧
        ∀ i, s.timeline.Placed queued i →
          (s.delayNextStep 50).timeline.keyframeTime? i = s.timeline.keyframeTime? i := by
  refine ⟨by decide +kernel, fun id hid => ?_⟩
  have hiff := delay_keeps_iff hurried id (d := 50) (by decide +kernel)
  refine ⟨hiff.1, hiff.2.2 (or_assoc.1 (.inl ?_))⟩
  clear hiff
  revert id
  decide +kernel

/-- A style on the finished first keyframe. -/
def finished : List (Operation ℚ) :=
  [.begin ⟨1⟩ 0, .change 0 (.write [.values (.ofList [("a", .literal (.number 1))])] none ∅),
    .change 0 .flush]

/-- A delay moves it. -/
theorem not_kept_finished :
    ¬∀ i, (((Score.empty : Score ℚ).performAll finished).scene 0).timeline.Placed
        ((Score.empty : Score ℚ).queuedAfter 0 (fun _ => none) finished) i →
      ((((Score.empty : Score ℚ).performAll finished).scene 0).delayNextStep
        50).timeline.keyframeTime? i =
      (((Score.empty : Score ℚ).performAll finished).scene 0).timeline.keyframeTime? i := by
  intro h
  have hplaced : (((Score.empty : Score ℚ).performAll finished).scene 0).timeline.Placed
      ((Score.empty : Score ℚ).queuedAfter 0 (fun _ => none) finished) 0 :=
    .inl ⟨⟨0, none, .ofList [("a", .literal (.number 1))]⟩, by decide +kernel,
      by decide +kernel⟩
  exact absurd (h 0 hplaced) (by decide +kernel)

end Choreography
