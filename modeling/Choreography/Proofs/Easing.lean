/-
Choreography/Proofs/Easing.lean

Which keyframes get which easings.

An animated step moves over a segment of time: it begins when its delay is over, and its easing
belongs to the keyframe at which it begins.  The easing is given to the keyframe that the clock
was at before, which is this one, whether or not the clock has moved (`Eased.easePrevious`).  So a
step that takes no time leaves an easing behind at a keyframe from which it does not move.

If steps with a style are all that a timeline sees, a keyframe therefore has the last easing of a
segment from its time (`Segment.latest`).  It has the one that belongs to it just if no such easing
has been left behind, or another one has replaced it.

Main result: `eases_iff`.
-/
import Choreography.Animation.Build
import Choreography.Proofs.Delay
import Choreography.Proofs.Finish
import Choreography.Proofs.Matches

namespace Choreography

/-! ### Segments -/

/-- The time over which a step moves. -/
structure Segment where
  start : ℚ
  duration : ℚ
  easing : Option String
  deriving DecidableEq

namespace Segment

/-- The last easing of a segment from a time. -/
def latest (ss : List Segment) (t : ℚ) : Option String :=
  ss.reverse.findSome? fun s => if s.start = t then s.easing else none

/-- An easing is the one that belongs to a time: that of the step which moves from there, or none
if no step does. -/
structure Eases (ss : List Segment) (t : ℚ) (easing : Option String) : Prop where
  moving : ∀ s ∈ ss, s.start = t → 0 < s.duration → easing = s.easing
  still : (∀ s ∈ ss, s.start = t → ¬0 < s.duration) → easing = none

/-- Segments of steps that are taken one after another. -/
structure InTurn (ss : List Segment) : Prop where
  nonneg : ∀ s ∈ ss, 0 ≤ s.duration
  apart : ss.Pairwise fun s s' => s.start + s.duration ≤ s'.start

variable {ss : List Segment} {t : ℚ}

theorem latest_append (xs ys : List Segment) (t : ℚ) :
    latest (xs ++ ys) t = (latest ys t).or (latest xs t) := by
  simp [latest, List.findSome?_append]

theorem latest_singleton (s : Segment) (t : ℚ) :
    latest [s] t = if s.start = t then s.easing else none := by
  by_cases h : s.start = t
  · cases he : s.easing <;> simp [latest, h, he]
  · simp [latest, h]

theorem latest_eq_none : latest ss t = none ↔ ∀ s ∈ ss, s.start = t → s.easing = none := by
  simp [latest, List.findSome?_eq_none_iff]

/-- Around a segment that takes time: what is at the same time comes before it and takes none. -/
theorem InTurn.exists_split (h : InTurn ss) {s : Segment} (hs : s ∈ ss) (hpos : 0 < s.duration) :
    ∃ pre post, ss = pre ++ s :: post ∧ (∀ z ∈ pre, z.start = s.start → z.duration = 0) ∧
      ∀ z ∈ post, z.start ≠ s.start := by
  obtain ⟨pre, post, rfl⟩ := List.append_of_mem hs
  -- a segment that takes time is over later than it begins, so those after it begin later
  obtain ⟨-, hafter, hbefore⟩ := List.pairwise_append.1 h.apart
  refine ⟨pre, post, rfl, fun z hz hstart => ?_, fun z hz hstart => ?_⟩
  · have hnonneg := h.nonneg z (List.mem_append_left _ hz)
    have hle := hbefore z hz s List.mem_cons_self
    linarith
  · have hle := (List.pairwise_cons.1 hafter).1 z hz
    linarith

/-- At one time only one segment takes time. -/
theorem InTurn.eq_of_start_eq (h : InTurn ss) {s s' : Segment} (hs : s ∈ ss) (hpos : 0 < s.duration)
    (hs' : s' ∈ ss) (hpos' : 0 < s'.duration) (hstart : s'.start = s.start) : s' = s := by
  obtain ⟨pre, post, rfl, hbefore, hafter⟩ := h.exists_split hs hpos
  rcases List.mem_append.1 hs' with hs' | hs'
  · exact absurd (hbefore s' hs' hstart) hpos'.ne'
  · rcases List.mem_cons.1 hs' with rfl | hs'
    · rfl
    · exact absurd hstart (hafter s' hs')

/-- Where a segment takes time, the last easing is its own, if it has one or there is no other. -/
theorem InTurn.latest_start (h : InTurn ss) {s : Segment} (hs : s ∈ ss) (hpos : 0 < s.duration)
    (hother : s.easing = none → ∀ z ∈ ss, z.start = s.start → z.duration = 0 → z.easing = none) :
    latest ss s.start = s.easing := by
  obtain ⟨pre, post, rfl, hbefore, hafter⟩ := h.exists_split hs hpos
  -- of what begins there, the segment is the last
  have hpost : latest post s.start = none :=
    latest_eq_none.2 fun z hz hzt => absurd hzt (hafter z hz)
  rw [← List.singleton_append, latest_append, latest_append, hpost, Option.none_or,
    latest_singleton, if_pos rfl]
  cases he : s.easing with
  | some e => rfl
  | none =>
    rw [Option.none_or]
    exact latest_eq_none.2 fun z hz hzt =>
      hother he z (List.mem_append_left _ hz) hzt (hbefore z hz hzt)

/-- The last easing belongs to a time just if whatever takes no time there has left no easing
behind that is not replaced. -/
theorem eases_latest_iff (h : InTurn ss) :
    Eases ss t (latest ss t) ↔ ∀ z ∈ ss, z.start = t → z.duration = 0 → z.easing.isSome →
      ∃ s ∈ ss, s.start = t ∧ 0 < s.duration ∧ s.easing.isSome := by
  constructor
  · intro heases z hz hzt _ hzeasing
    -- the easing of the segment is seen, so the last easing is not missing
    have hseen : latest ss t ≠ none := fun hnone => by
      rw [latest_eq_none.1 hnone z hz hzt] at hzeasing
      cases hzeasing
    by_contra hnot
    push Not at hnot
    refine hseen ?_
    by_cases hmoving : ∃ s ∈ ss, s.start = t ∧ 0 < s.duration
    · obtain ⟨s, hs, hst, hpos⟩ := hmoving
      rw [heases.moving s hs hst hpos]
      exact Option.not_isSome_iff_eq_none.1 (hnot s hs hst hpos)
    · push Not at hmoving
      exact heases.still fun s hs hst => not_lt.2 (hmoving s hs hst)
  · intro hreplaced
    refine ⟨fun s hs hst hpos => ?_, fun hstill => ?_⟩
    · subst hst
      refine h.latest_start hs hpos fun hnone z hz hzt hzero => ?_
      -- what replaces an easing takes time, so it can only be the segment itself
      refine Option.not_isSome_iff_eq_none.1 fun hzeasing => ?_
      obtain ⟨s', hs', hst', hpos', he'⟩ := hreplaced z hz hzt hzero hzeasing
      rw [h.eq_of_start_eq hs hpos hs' hpos' hst', hnone] at he'
      cases he'
    · refine latest_eq_none.2 fun z hz hzt => Option.not_isSome_iff_eq_none.1 fun hzeasing => ?_
      have hzero : z.duration = 0 := le_antisymm (not_lt.1 (hstill z hz hzt)) (h.nonneg z hz)
      obtain ⟨s, hs, hst, hpos, -⟩ := hreplaced z hz hzt hzero hzeasing
      exact hstill s hs hst hpos

end Segment

/-! ### Moves -/

/-- An animated step with a style. -/
structure Move where
  timings : Timings ℚ
  style : StyleStep ℚ

namespace Move

/-- The node of a move. -/
def node (m : Move) : Animation ℚ := .animate (.fixed m.timings) (.style m.style)

/-- The easing of a move: that of its timings comes before that of its style. -/
def easing (m : Move) : Option String := m.timings.easing.or m.style.easing

/-- Whether neither time of a move is negative. -/
def Timely (m : Move) : Prop := 0 ≤ m.timings.delay ∧ 0 ≤ m.timings.duration

/-- The segments of moves that are made one after another. -/
def segments : ℚ → List Move → List Segment
  | _, [] => []
  | clock, m :: ms =>
    let start := clock + m.timings.delay
    ⟨start, m.timings.duration, m.easing⟩ :: segments (start + m.timings.duration) ms

/-- No segment begins before the clock. -/
theorem le_start_of_mem_segments {ms : List Move} (h : ∀ m ∈ ms, m.Timely) {clock : ℚ} :
    ∀ s ∈ segments clock ms, clock ≤ s.start := by
  induction ms generalizing clock with
  | nil => exact fun s hs => by cases hs
  | cons m ms ih =>
    obtain ⟨⟨hdelay, hduration⟩, hrest⟩ := List.forall_mem_cons.1 h
    refine List.forall_mem_cons.2 ⟨le_add_of_nonneg_right hdelay, fun s hs => ?_⟩
    have hle := ih hrest s hs
    linarith

/-- Moves whose times are not negative are in turn. -/
theorem inTurn_segments {ms : List Move} (h : ∀ m ∈ ms, m.Timely) (clock : ℚ) :
    Segment.InTurn (segments clock ms) := by
  induction ms generalizing clock with
  | nil => exact ⟨fun s hs => (by cases hs), .nil⟩
  | cons m ms ih =>
    obtain ⟨hm, hrest⟩ := List.forall_mem_cons.1 h
    have hlater := ih hrest (clock + m.timings.delay + m.timings.duration)
    exact ⟨List.forall_mem_cons.2 ⟨hm.2, hlater.nonneg⟩,
      .cons (le_start_of_mem_segments hrest) hlater.apart⟩

end Move

/-! ### Timelines -/

namespace Timeline

/-- The times of the keyframes with their easings. -/
def marks {τ : Type} (t : Timeline τ) : List (τ × Option String) :=
  t.keyframes.map fun k => (k.time, k.easing)

/-- The clock has gone through segments and not been turned back, and every keyframe has the last
easing from its time. -/
structure Eased (t : Timeline ℚ) (ss : List Segment) : Prop where
  indexed : t.Indexed
  bounds : ∀ x ∈ t.times, 0 ≤ x ∧ x ≤ t.duration
  starts : ∀ s ∈ ss, s.start ∈ t.times
  easings : ∀ m ∈ t.marks, m.2 = Segment.latest ss m.1

variable {t t' : Timeline ℚ} {ss : List Segment}

theorem Eased.of_marks_eq (h : t.Eased ss) (hi : t'.Indexed) (hs : t'.skeleton = t.skeleton)
    (hm : t'.marks = t.marks) : t'.Eased ss := by
  have htimes : t'.times = t.times := congrArg Skeleton.times hs
  have hduration : t'.duration = t.duration := congrArg Skeleton.duration hs
  refine ⟨hi, ?_, ?_, ?_⟩
  · rw [htimes, hduration]
    exact h.bounds
  · rw [htimes]
    exact h.starts
  · rw [hm]
    exact h.easings

theorem eased_begin (lineage : Nat) (element : ElementId) (start : ℚ)
    (own : Option (StyleMap ℚ)) : (begin lineage element start own).Eased [] where
  indexed := indexed_begin lineage element start own
  bounds x hx := by
    rw [List.mem_singleton.1 hx]
    exact ⟨le_rfl, le_rfl⟩
  starts s hs := by cases hs
  easings m hm := by
    rw [List.mem_singleton.1 hm]
    rfl

theorem previous_loadKeyframe (h : t.keyframes ≠ []) :
    t.loadKeyframe.previous = some t.current := by
  have hne : t.keyframes.isEmpty = false := List.isEmpty_eq_false_iff.2 h
  simp only [loadKeyframe, hne, Bool.false_eq_true, if_false]
  split <;> rfl

/-- A keyframe that is made has no easing yet, and no segment begins there yet. -/
theorem Eased.loadKeyframe (h : t.Eased ss) {time : ℚ} (hle : t.duration ≤ time) :
    { t with duration := time }.loadKeyframe.Eased ss := by
  have hkeyframes : { t with duration := time }.loadKeyframe.keyframes =
      if time ∈ t.times then t.keyframes else t.keyframes ++ [⟨time, none, ∅⟩] :=
    keyframes_loadKeyframe _
  have hnow : t.duration ∈ t.times := List.mem_of_getElem? h.indexed.current
  refine ⟨h.indexed.loadKeyframe time, bounds_loadKeyframe hnow h.bounds hle, fun s hs => ?_, ?_⟩
  · exact (Scene.prefix_times_loadKeyframe { t with duration := time }).subset (h.starts s hs)
  · rw [marks, hkeyframes]
    -- the keyframe is there, or it is new and no segment has begun at its time
    split
    · exact h.easings
    · next hnew =>
      rw [List.map_append]
      refine List.forall_mem_append.2 ⟨h.easings, List.forall_mem_singleton.2 ?_⟩
      refine (Segment.latest_eq_none.2 fun s hs hst => absurd (h.starts s hs) ?_).symm
      exact hst ▸ hnew

/-- The easing of a segment goes to the keyframe at which it begins. -/
theorem Eased.easePrevious (h : t.Eased ss) {i : Nat} (hprevious : t.previous = some i) {start : ℚ}
    (hi : t.times[i]? = some start) (duration : ℚ) (easing : Option String) :
    (t.easePrevious easing).Eased (ss ++ [⟨start, duration, easing⟩]) := by
  have hskeleton := skeleton_easePrevious easing t
  have htimes : (t.easePrevious easing).times = t.times := congrArg Skeleton.times hskeleton
  have hduration : (t.easePrevious easing).duration = t.duration :=
    congrArg Skeleton.duration hskeleton
  refine ⟨h.indexed.of_eq hskeleton (pointers_easePrevious easing t), ?_, ?_, ?_⟩
  · rw [htimes, hduration]
    exact h.bounds
  · rw [htimes]
    exact List.forall_mem_append.2 ⟨h.starts, by simpa using List.mem_of_getElem? hi⟩
  · -- without an easing nothing is marked, and a segment without one does not count
    cases easing with
    | none =>
      intro m hm
      rw [Segment.latest_append, Segment.latest_singleton, ite_self, Option.none_or]
      exact h.easings m hm
    | some e =>
      have hmarks : (t.easePrevious (some e)).marks =
          (t.keyframes.modify i ({ · with easing := some e })).map fun k => (k.time, k.easing) := by
        unfold Timeline.easePrevious
        rw [hprevious]
        rfl
      rw [hmarks]
      refine List.forall_mem_map.2 fun k hk => ?_
      obtain ⟨j, hj⟩ := List.mem_iff_getElem?.1 hk
      rw [List.getElem?_modify] at hj
      obtain ⟨k', hk', rfl⟩ := Option.map_eq_some_iff.1 hj
      rw [Segment.latest_append, Segment.latest_singleton]
      have htime : t.times[j]? = some k'.time := by
        rw [times, List.getElem?_map, hk']
        rfl
      by_cases hij : i = j
      · subst hij
        obtain rfl := Option.some.inj (hi.symm.trans htime)
        simp
      · -- another keyframe has another time
        have hne : start ≠ k'.time := by
          rintro rfl
          obtain ⟨hlt, -⟩ := List.getElem?_eq_some_iff.1 hi
          exact hij ((List.getElem?_inj hlt h.indexed.nodup).1 (hi.trans htime.symm))
        simp only [hij, if_false, if_neg hne, Option.none_or]
        exact h.easings (k'.time, k'.easing) (List.mem_map.2 ⟨k', List.mem_of_getElem? hk', rfl⟩)

end Timeline

/-! ### Changes -/

namespace Scene

variable {s : Scene ℚ} {ss : List Segment}

theorem marks_flush (s : Scene ℚ) : s.flush.timeline.marks = s.timeline.marks := by
  unfold flush
  split
  · rfl
  · refine Timeline.map_modify _ ?_ _ _
    exact fun _ => rfl

theorem eased_flush (h : s.timeline.Eased ss) : s.flush.timeline.Eased ss :=
  h.of_marks_eq (h.indexed.of_eq s.skeleton_flush s.pointers_flush) s.skeleton_flush s.marks_flush

theorem eased_snapshot (h : s.timeline.Eased ss) : s.snapshot.timeline.Eased ss :=
  h.of_marks_eq (h.indexed.of_eq s.skeleton_snapshot s.pointers_snapshot) s.skeleton_snapshot
    (congrArg (List.map _) s.keyframes_snapshot)

theorem eased_forwardTo (h : s.timeline.Eased ss) {time : ℚ} (hle : s.timeline.duration ≤ time) :
    (s.forwardTo time).timeline.Eased ss := by
  have hduration : s.flush.timeline.duration = s.timeline.duration :=
    congrArg Skeleton.duration s.skeleton_flush
  exact (eased_flush h).loadKeyframe (hduration.le.trans hle)

/-- When the clock has been set, the keyframe before is the one that it was at. -/
theorem previous_forwardTo (h : s.timeline.Indexed) (time : ℚ) :
    ∃ i, (s.forwardTo time).timeline.previous = some i ∧
      (s.forwardTo time).timeline.times[i]? = some s.timeline.duration := by
  have hflush := h.of_eq s.skeleton_flush s.pointers_flush
  refine ⟨_, Timeline.previous_loadKeyframe (t := { s.flush.timeline with duration := time })
    hflush.keyframes_ne_nil, ?_⟩
  have hnow : s.flush.timeline.times[s.flush.timeline.current]? = some s.timeline.duration :=
    hflush.current.trans (congrArg (some ∘ Skeleton.duration) s.skeleton_flush)
  -- the keyframes that were there keep their places
  obtain ⟨rest, hrest⟩ := prefix_times_loadKeyframe { s.flush.timeline with duration := time }
  obtain ⟨hlt, -⟩ := List.getElem?_eq_some_iff.1 hnow
  show ({ s.flush.timeline with duration := time } : Timeline ℚ).loadKeyframe.times[_]? = _
  rw [← hrest]
  exact (List.getElem?_append_left hlt).trans hnow

/-- Styles bring the easing of a segment to the keyframe before. -/
theorem eased_setStyles (h : s.timeline.Eased ss) {i : Nat}
    (hprevious : s.timeline.previous = some i) {start : ℚ}
    (hi : s.timeline.times[i]? = some start) (entries : List (StyleEntry ℚ))
    (duration : ℚ) (easing : Option String) (params : Params ℚ) :
    (s.setStyles entries easing params).1.timeline.Eased (ss ++ [⟨start, duration, easing⟩]) := by
  -- the easing comes first, and the writes do not touch it
  have hease := h.easePrevious hprevious hi duration easing
  have hskeleton := skeleton_writeAll params (flatten s.shared entries).entries
    (s.onTimeline (Timeline.easePrevious easing))
  have hpointers := pointers_writeAll params (flatten s.shared entries).entries
    (s.onTimeline (Timeline.easePrevious easing))
  exact hease.of_marks_eq (hease.indexed.of_eq hskeleton hpointers) hskeleton
    (congrArg (List.map _) (keyframes_writeAll params _ _))

/-- Styles without an easing are not seen. -/
theorem eased_setStyles_none (h : s.timeline.Eased ss) (entries : List (StyleEntry ℚ))
    (params : Params ℚ) : (s.setStyles entries none params).1.timeline.Eased ss :=
  h.of_marks_eq (indexed_change h.indexed (.write entries none params))
    (s.skeleton_setStyles entries none params)
    (congrArg (List.map _)
      (keyframes_writeAll params _ (s.onTimeline (Timeline.easePrevious none))))

/-- So does an empty step. -/
theorem eased_setEmptyStep (h : s.timeline.Eased ss) {i : Nat}
    (hprevious : s.timeline.previous = some i) {start : ℚ}
    (hi : s.timeline.times[i]? = some start) (duration : ℚ) (easing : Option String) :
    (s.setEmptyStep easing).timeline.Eased (ss ++ [⟨start, duration, easing⟩]) := by
  refine (h.easePrevious hprevious hi duration easing).of_marks_eq
    (indexed_change h.indexed (.emptyStep easing))
    ((s.skeleton_setEmptyStep easing).trans (Timeline.skeleton_easePrevious easing _).symm) ?_
  refine Timeline.map_modify _ ?_ _ _
  exact fun _ => rfl

end Scene

/-! ### Walks -/

namespace Walk

/-- A walk that has gone through segments on a timeline, which is the one that was entered last,
and has not entered a scope from there. -/
structure Traced (id : TimelineId) (clock : ℚ) (ss : List Segment) (w : Walk ℚ) : Prop where
  valid : w.Valid
  line : w.scope.timeline = id
  forks : w.scope.forks = 0
  last : w.score.order.getLast? = some (.timeline id)
  clock : w.timeline.duration = clock
  eased : w.timeline.Eased ss

namespace Traced

variable {id : TimelineId} {clock : ℚ} {ss : List Segment} {w : Walk ℚ}

theorem of_score_eq (h : Traced id clock ss w) {u : Walk ℚ} (hs : u.score = w.score)
    (hline : u.scope.timeline = w.scope.timeline) (he : u.scope.element = w.scope.element)
    (hf : u.scope.forks = w.scope.forks) : Traced id clock ss u := by
  have ht : u.timeline = w.timeline := by
    rw [timeline, hs, hline]
    rfl
  refine ⟨h.valid.of_eq hs hline he, hline.trans h.line, hf.trans h.forks, ?_, ?_, ?_⟩
  · rw [hs]
    exact h.last
  · rw [ht]
    exact h.clock
  · rw [ht]
    exact h.eased

/-- What a change does to the timeline of the scope, it does to the walk. -/
theorem change (h : Traced id clock ss w) (c : Change ℚ) {clock' : ℚ} {ss' : List Segment}
    (hclock : ((w.score.scene w.scope.timeline).change c).timeline.duration = clock')
    (heased : ((w.score.scene w.scope.timeline).change c).timeline.Eased ss') :
    Traced id clock' ss' (w.edit (·.change c)) := by
  have ht : (w.edit (·.change c)).timeline
      = ((w.score.scene w.scope.timeline).change c).timeline :=
    Score.timeline_edit_self _ h.valid.timeline
  refine ⟨(Effect.change w c).valid h.valid, h.line, h.forks, h.last, ?_, ?_⟩
  · rw [ht]
    exact hclock
  · rw [ht]
    exact heased

theorem flush (h : Traced id clock ss w) : Traced id clock ss (w.edit Scene.flush) :=
  h.change .flush ((congrArg Skeleton.duration (Scene.skeleton_flush _)).trans h.clock)
    (Scene.eased_flush h.eased)

theorem snapshot (h : Traced id clock ss w) : Traced id clock ss (w.edit Scene.snapshot) :=
  h.change .snapshot ((congrArg Skeleton.duration (Scene.skeleton_snapshot _)).trans h.clock)
    (Scene.eased_snapshot h.eased)

theorem advance (h : Traced id clock ss w) {time : ℚ} (htime : 0 ≤ time) :
    Traced id (clock + time) ss (w.advance time) := by
  refine h.change (.moveTo (w.timeline.duration + time)) ?_ ?_
  · rw [← h.clock]
    exact Scene.duration_forwardTo _ _
  · exact Scene.eased_forwardTo h.eased (le_add_of_nonneg_right htime)

/-- When the clock has moved, the keyframe before is the one at the time that it showed. -/
theorem previous_advance (h : Traced id clock ss w) (time : ℚ) :
    ∃ i, (w.advance time).timeline.previous = some i ∧
      (w.advance time).timeline.times[i]? = some clock := by
  have ht : (w.advance time).timeline = ((w.score.scene w.scope.timeline).forwardTo
      (w.timeline.duration + time)).timeline := Score.timeline_edit_self _ h.valid.timeline
  rw [ht, ← h.clock]
  exact Scene.previous_forwardTo h.eased.indexed _

/-- Inside an animated step a style gives its easing to the keyframe before. -/
theorem style (h : Traced id clock ss w) {timings : Timings ℚ}
    (htimings : w.scope.timings = some timings) {i : Nat} (hprevious : w.timeline.previous = some i)
    {start : ℚ} (hi : w.timeline.times[i]? = some start) (duration : ℚ) (step : StyleStep ℚ) :
    Traced id clock (ss ++ [⟨start, duration, timings.easing.or step.easing⟩]) (w.style step) := by
  unfold Walk.style
  simp only [htimings, Option.isNone_some, Bool.false_and, Bool.false_eq_true, if_false,
    Option.bind_some]
  refine of_score_eq (w := if step.entries.isEmpty then _ else _) ?_ rfl rfl rfl rfl
  -- an empty step writes `auto`, but its easing goes the same way
  split
  · exact h.change (.emptyStep _)
      ((congrArg Skeleton.duration (Scene.skeleton_setEmptyStep _ _)).trans h.clock)
      (Scene.eased_setEmptyStep h.eased hprevious hi duration _)
  · have hwrite := h.change (.write step.entries (timings.easing.or step.easing)
        w.scope.options.params)
      ((congrArg Skeleton.duration (Scene.skeleton_setStyles _ _ _ _)).trans h.clock)
      (Scene.eased_setStyles h.eased hprevious hi step.entries duration _ _)
    exact hwrite.of_score_eq rfl rfl rfl rfl

/-- A move begins when its delay is over. -/
theorem openAnimate (h : Traced id clock ss w) {timings : Timings ℚ} (hdelay : 0 ≤ timings.delay) :
    Traced id (clock + timings.delay) ss (w.openAnimate timings) := by
  have hopen : Traced id clock ss (w.withTimings (some timings)) := h.of_score_eq rfl rfl rfl rfl
  unfold Walk.openAnimate
  dsimp only
  split
  · exact (hopen.advance hdelay).snapshot
  · -- there is no delay, so the clock stays
    next hzero =>
    rw [le_antisymm (not_lt.1 hzero) hdelay, add_zero]
    exact hopen

/-- A move goes through one more segment. -/
theorem move (h : Traced id clock ss w) (setting : Setting ℚ) {m : Move} (hm : m.Timely) :
    Traced id (clock + m.timings.delay + m.timings.duration)
      (ss ++ [⟨clock + m.timings.delay, m.timings.duration, m.easing⟩])
      (m.node.body setting w) := by
  have hopen := h.openAnimate hm.1
  have hmoved := hopen.advance hm.2
  -- the keyframe before is the one at the time when the delay was over
  obtain ⟨i, hprevious, hi⟩ := hopen.previous_advance m.timings.duration
  have htimings : ((w.openAnimate m.timings).advance m.timings.duration).scope.timings
      = some m.timings := timings_openAnimate m.timings w
  have hstyled := hmoved.style htimings hprevious hi m.timings.duration m.style
  exact hstyled.flush.of_score_eq rfl rfl rfl rfl

/-- Moves that are made one after another go through their segments. -/
theorem follow (h : Traced id clock ss w) (setting : Setting ℚ) {moves : List Move}
    (hmoves : ∀ m ∈ moves, m.Timely) :
    ∃ clock', Traced id clock' (ss ++ Move.segments clock moves)
      (w.follow (bodies setting (moves.map Move.node))) := by
  induction moves generalizing clock ss w with
  | nil =>
    rw [Move.segments, List.append_nil]
    exact ⟨clock, h⟩
  | cons m moves ih =>
    obtain ⟨hm, hrest⟩ := List.forall_mem_cons.1 hmoves
    obtain ⟨clock', hfollow⟩ := ih (h.move setting hm) hrest
    rw [List.append_assoc] at hfollow
    exact ⟨clock', hfollow⟩

theorem of_begins {start : ℚ} (h : w.Begins start) (hv : w.Valid) (hf : w.scope.forks = 0)
    (hlast : w.score.order.getLast? = some (.timeline w.scope.timeline)) :
    Traced w.scope.timeline 0 [] w := by
  obtain ⟨lineage, element, own, hnew⟩ := h.new
  refine ⟨hv, rfl, hf, hlast, ?_, ?_⟩
  · rw [hnew]
    rfl
  · rw [hnew]
    exact Timeline.eased_begin lineage element start own

end Traced

/-! ### Runs -/

/-- The starting styles have no easing. -/
theorem traced_start (root : ElementId) (setup : Setup ℚ) (sink : List Diagnostic) :
    Traced 0 0 [] (start root setup sink) := by
  have hblank : (blank root setup sink).Begins 0 :=
    ⟨(valid_blank root setup sink).timeline, 0, root, none, rfl⟩
  have hdelay := hblank.delay (beq_self_eq_true 0) setup.delay
  have hvalid : ((blank root setup sink).delay setup.delay).Valid :=
    (Effect.compositional.delay _ _).valid (valid_blank root setup sink)
  -- before the starting styles there is only a delay, which moves the start
  have htraced : Traced 0 0 [] ((blank root setup sink).delay setup.delay) := by
    have h := Traced.of_begins hdelay hvalid (by rw [scope_delay]; rfl)
      (by rw [order_delay, scope_delay]; rfl)
    rwa [scope_delay] at h
  have hwrite := htraced.change (.write [.values setup.startingStyles] none
      ((blank root setup sink).delay setup.delay).scope.options.params)
    ((congrArg Skeleton.duration (Scene.skeleton_setStyles _ _ _ _)).trans htraced.clock)
    (Scene.eased_setStyles_none htraced.eased _ _)
  rw [start_eq]
  exact hwrite.of_score_eq rfl rfl rfl rfl

/-- A sequence begins on a timeline that is entered last. -/
theorem Traced.openSequence {id : TimelineId} {w : Walk ℚ} (h : Traced id 0 [] w)
    (options : Option (Options ℚ)) :
    Traced (w.openSequence options).scope.timeline 0 [] (w.openSequence options) := by
  have hvalid := valid_openSequence options h.valid
  unfold Walk.openSequence at hvalid ⊢
  cases hscoping : scoping options with
  | none =>
    dsimp only
    rw [h.line]
    exact h
  | some o =>
    rw [hscoping] at hvalid
    refine of_begins ((begins_renew none _).delay (beq_self_eq_true 0) _) hvalid ?_ ?_
    · rw [scope_delay]
      rfl
    · rw [order_delay, scope_delay, renew_timeline, renew_order, List.getLast?_concat]

/-- A run over moves goes through their segments. -/
theorem exists_traced_run (setting : Setting ℚ) (root : ElementId) {moves : List Move}
    (hmoves : ∀ m ∈ moves, m.Timely) (options : Option (Options ℚ)) (setup : Setup ℚ)
    (sink : List Diagnostic) :
    ∃ u clock, Traced ((start root setup sink).openSequence options).scope.timeline clock
        (Move.segments 0 moves) u ∧
      (run setting root (.sequence (moves.map Move.node) options) setup sink).score = u.score := by
  have hstart := traced_start root setup sink
  have hopen := hstart.openSequence options
  obtain ⟨clock, hfollow⟩ := hopen.follow setting hmoves
  rw [List.nil_append] at hfollow
  -- at its end the sequence leaves its scope, which the score does not show
  have hrun : (run setting root (.sequence (moves.map Move.node) options) setup sink).score =
      (((start root setup sink).openSequence options).steps (start root setup sink).scope.forks
        (bodies setting (moves.map Move.node))).score := by
    show (Walk.sequence _ options (start root setup sink)).score = _
    unfold Walk.sequence
    dsimp only
    split <;> rfl
  rw [hrun, steps]
  split
  · next hempty =>
    rw [List.isEmpty_iff] at hempty
    rw [hempty] at hfollow
    exact ⟨_, clock, hfollow, rfl⟩
  · -- no scope has been entered, so the timeline stays the same
    have hflush := hfollow.flush
    refine ⟨_, clock, hflush, ?_⟩
    rw [if_neg]
    · rfl
    · exact hflush.forks.trans_le (Nat.zero_le _) |>.not_gt

/-- The final styles have no easing either. -/
theorem eased_finish {w : Walk ℚ} {id : TimelineId} {ss : List Segment}
    (h : (w.score.timeline id).Eased ss) (root : ElementId) (setup : Setup ℚ) :
    ((w.finish root setup).score.timeline id).Eased ss := by
  unfold finish
  split
  · exact h
  · split
    · exact Score.timeline_edit_induct (P := fun t => t.Eased ss)
        (f := fun s => (s.setStyles [.values setup.finalStyles] none w.scope.options.params).1)
        (fun h => Scene.eased_setStyles_none h _ _) h
    · exact h

end Walk

/-! ### Instructions -/

/-- The local times of the keyframes of an instruction with their easings. -/
def Instruction.marks (i : Instruction ℚ) : List (ℚ × Option String) :=
  i.keyframes.map fun k => (k.offset * i.duration, k.easing)

/-- The keyframes of a timeline keep their times and easings in its instruction. -/
theorem Scene.mem_marks_toInstruction {s : Scene ℚ} {ss : List Segment} (h : s.timeline.Eased ss)
    (m : ℚ × Option String) : m ∈ s.toInstruction.marks ↔ m ∈ s.timeline.marks := by
  let view : Keyframe ℚ → ℚ × Option String :=
    fun k => (k.offset * s.flush.timeline.duration, k.easing)
  -- a part of the duration is the time again, for the clock was not turned back
  have hfractions : s.fractions.map view = s.timeline.marks := by
    rw [← s.marks_flush, fractions, List.map_map]
    refine List.map_congr_left fun k hk => Prod.ext ?_ rfl
    obtain ⟨hge, hle⟩ := (eased_flush h).bounds k.time (List.mem_map_of_mem hk)
    exact fraction_mul hge hle
  have hsorted : m ∈ (sortByOffset s.fractions).map view ↔ m ∈ s.timeline.marks := by
    rw [← hfractions]
    exact ((perm_sortByOffset s.fractions).map view).mem_iff
  show m ∈ s.toInstruction.keyframes.map view ↔ _
  rw [keyframes_toInstruction, ← hsorted]
  split
  · next hinstant =>
    rw [List.map_append, List.mem_append]
    refine or_iff_left_of_imp fun hm => ?_
    -- an instant lasts no time, so both keyframes are at its beginning
    have hzero : s.flush.timeline.duration = 0 := by
      simpa using (Bool.and_eq_true_iff.1 hinstant).2
    obtain ⟨k', hk', rfl⟩ := List.mem_map.1 hm
    obtain ⟨k, hk, rfl⟩ := List.mem_map.1 hk'
    refine List.mem_map.2 ⟨k, List.mem_of_mem_take hk, Prod.ext ?_ rfl⟩
    show k.offset * s.flush.timeline.duration = 1 * s.flush.timeline.duration
    rw [hzero, mul_zero, mul_zero]
  · exact Iff.rfl

/-- What was entered last is emitted last. -/
theorem getLast?_instructions {host : Host} {root : ElementId} {tree : Animation ℚ}
    {setup : Setup ℚ} {delegated : InstructionMap ℚ} {entry : Entry ℚ} :
    let w := Walk.run (setup.setting host delegated) root tree setup []
    w.score.order.getLast? = some entry → entry ∈ w.score.animated →
      (compile host root tree setup delegated).instructions.getLast? =
        some ((w.finish root setup).score.instruction entry) := by
  intro w hlast hanimated
  obtain ⟨before, hbefore⟩ := List.getLast?_eq_some_iff.1 hlast
  have hne : w.score.animated.isEmpty = false :=
    List.isEmpty_eq_false_iff.2 (List.ne_nil_of_mem hanimated)
  -- the entry that is listed last is the last one with something to show
  have hsplit : w.score.animated = before.filter w.score.containsAnimation ++ [entry] := by
    rw [Score.animated, hbefore, List.filter_append]
    rw [Score.animated, List.mem_filter] at hanimated
    rw [List.filter_singleton, hanimated.2]
    rfl
  show (if w.score.animated.isEmpty then _ else
    w.score.animated.map (w.finish root setup).score.instruction).getLast? = _
  rw [hne, if_neg Bool.false_ne_true, hsplit, List.map_append, List.map_singleton,
    List.getLast?_concat]

/-- **Which easing a keyframe has**, if steps with a style are all that its timeline sees: the last
one of a segment from its time.  It is the one that belongs to this time just if no segment that
takes no time has left its easing there, or one that moves on from there has replaced it. -/
theorem eases_iff {host : Host} {root : ElementId} {moves : List Move} {setup : Setup ℚ}
    {delegated : InstructionMap ℚ} {options : Option (Options ℚ)}
    (hmoves : ∀ m ∈ moves, m.Timely) :
    let tree : Animation ℚ := .sequence (moves.map Move.node) options
    let w := Walk.run (setup.setting host delegated) root tree setup []
    let entry : Entry ℚ :=
      .timeline ((Walk.start root setup []).openSequence options).scope.timeline
    let i := (w.finish root setup).score.instruction entry
    let ss := Move.segments 0 moves
    (entry ∈ w.score.animated →
        (compile host root tree setup delegated).instructions.getLast? = some i) ∧
      (∀ k ∈ i.keyframes, k.easing = Segment.latest ss (k.offset * i.duration)) ∧
      ((∀ k ∈ i.keyframes, Segment.Eases ss (k.offset * i.duration) k.easing) ↔
        ∀ z ∈ ss, z.duration = 0 → z.easing.isSome →
          ∃ s ∈ ss, s.start = z.start ∧ 0 < s.duration ∧ s.easing.isSome) := by
  intro tree w entry i ss
  obtain ⟨u, clock, htraced, hscore⟩ := Walk.exists_traced_run (setup.setting host delegated) root
    hmoves options setup []
  change w.score = u.score at hscore
  have hrun : (w.score.timeline u.scope.timeline).Eased ss := by
    rw [hscore]
    exact htraced.eased
  rw [htraced.line] at hrun
  have heased := Walk.eased_finish hrun root setup
  -- the keyframes of the instruction are those of the timeline, in the order of their times
  have hmarks := Scene.mem_marks_toInstruction (s := (w.finish root setup).score.scene _) heased
  have hlatest : ∀ k ∈ i.keyframes, k.easing = Segment.latest ss (k.offset * i.duration) :=
    fun k hk => heased.easings _ ((hmarks _).1 (List.mem_map.2 ⟨k, hk, rfl⟩))
  have hlast : w.score.order.getLast? = some entry := by
    rw [hscore]
    exact htraced.last
  refine ⟨getLast?_instructions hlast, hlatest, fun heases z hz => ?_, fun hreplaced k hk => ?_⟩
  · -- there is a keyframe at which the segment begins
    obtain ⟨m, hm, hstart⟩ := List.mem_map.1 (heased.starts z hz)
    obtain ⟨k, hk, hmark⟩ := List.mem_map.1 ((hmarks _).2 (List.mem_map.2 ⟨m, hm, rfl⟩))
    have htime : k.offset * i.duration = z.start := (congrArg Prod.fst hmark).trans hstart
    have hk' := heases k hk
    rw [hlatest k hk, htime] at hk'
    exact (Segment.eases_latest_iff (Move.inTurn_segments hmoves 0)).1 hk' z hz rfl
  · rw [hlatest k hk]
    refine (Segment.eases_latest_iff (Move.inTurn_segments hmoves 0)).2 fun z hz hzt => ?_
    rw [← hzt]
    exact hreplaced z hz

/-- A delayed move, a jump, and a move with the easing of its style. -/
def glide : List Move :=
  [⟨⟨100, 50, some "ease-in"⟩, .ofEntries [("a", .number 1)]⟩,
    ⟨⟨0, 0, none⟩, .ofEntries [("a", .number 2)]⟩,
    ⟨⟨100, 0, none⟩, { StyleStep.ofEntries [("a", .number 3)] with easing := some "linear" }⟩]

example : Move.segments 0 glide =
    [⟨50, 100, some "ease-in"⟩, ⟨150, 0, none⟩, ⟨150, 100, some "linear"⟩] := by
  decide +kernel

/-- Its easings are where they belong. -/
theorem eases_iff_glide :
    let w := Walk.run ((Setup.standard : Setup ℚ).setting (fun _ _ _ => []) ∅) ⟨1⟩
      (.sequence (glide.map Move.node) none) .standard []
    let entry : Entry ℚ :=
      .timeline ((Walk.start ⟨1⟩ (Setup.standard : Setup ℚ) []).openSequence none).scope.timeline
    let i := (w.finish ⟨1⟩ .standard).score.instruction entry
    (∀ m ∈ glide, m.Timely) ∧
      (compile (fun _ _ _ => []) ⟨1⟩ (.sequence (glide.map Move.node) none) .standard
        ∅).instructions.getLast? = some i ∧
        ∀ k ∈ i.keyframes,
          Segment.Eases (Move.segments 0 glide) (k.offset * i.duration) k.easing := by
  intro w entry i
  have htimely : ∀ m ∈ glide, m.Timely := by
    unfold Move.Timely
    decide +kernel
  obtain ⟨hemitted, -, hiff⟩ := @eases_iff (fun _ _ _ => []) ⟨1⟩ glide .standard ∅ none htimely
  refine ⟨htimely, hemitted (by decide +kernel), hiff.2 ?_⟩
  decide +kernel

/-- A jump with an easing, and a move without one. -/
def bounce : List Move :=
  [⟨⟨0, 0, some "ease-in"⟩, .ofEntries [("a", .number 1)]⟩,
    ⟨⟨100, 0, none⟩, .ofEntries [("a", .number 2)]⟩]

/-- The move gets the easing of the jump. -/
theorem not_eases_bounce :
    (compile (fun _ _ _ => []) ⟨1⟩ (.sequence (bounce.map Move.node) none) .standard
        ∅).instructions.map Instruction.marks = [[(0, some "ease-in"), (100, none)]] ∧
      ¬Segment.Eases (Move.segments 0 bounce) 0 (some "ease-in") := by
  refine ⟨by decide +kernel, fun h => ?_⟩
  have hmoving := h.moving ⟨0, 100, none⟩ (by decide +kernel) rfl (by decide +kernel)
  cases hmoving

end Choreography
