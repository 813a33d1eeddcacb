/-
Choreography/Proofs/Skeleton.lean

What styles do not touch.

The `Skeleton` of a timeline is all of it but its styles and easings: whose timeline it
is, its clock, the times of its keyframes and the one that it is at.  Writing a style,
finishing a keyframe, and taking note of what others wrote all leave the skeleton as it
is; only the operations on the clock change it, and these do not change whose timeline
it is (`Timeline.owner`).

Three operations write many values one after another: a step writes its styles, a
snapshot queues what is known, a merge takes note of what another timeline wrote.  Each
of them has an induction principle (`Scene.writeAll_induct`, `snapshot_induct` and
`merge_induct`), by which it keeps all that the writing of one value keeps.  What a
snapshot and a merge leave alone is said by `Scene.timeline_snapshot` and
`Scene.timeline_merge`.

A `Change` is one thing that can happen to the timeline of a scene.  The lemmas at the
end say for every change at once what it keeps.
-/
import Mathlib
import Choreography.Timeline

namespace Choreography

variable {τ : Type}

/-! ### Skeletons -/

/-- A timeline without its styles and easings. -/
@[ext] structure Skeleton (τ : Type) where
  lineage : Nat
  element : ElementId
  isFirst : Bool
  start : τ
  duration : τ
  times : List τ
  current : Nat

namespace Timeline

/-- The times of the keyframes, in the order in which they were reached. -/
def times (t : Timeline τ) : List τ := t.keyframes.map TimedKeyframe.time

/-- All but the styles and easings of a timeline. -/
def skeleton (t : Timeline τ) : Skeleton τ where
  lineage := t.lineage
  element := t.element
  isFirst := t.own.isNone
  start := t.start
  duration := t.duration
  times := t.times
  current := t.current

/-- Whose timeline it is, and whether it is the first one of its element. -/
def owner (t : Timeline τ) : Nat × ElementId × Bool := (t.lineage, t.element, t.own.isNone)

/-- The skeleton says whose timeline it is. -/
theorem owner_eq_of_skeleton_eq {t t' : Timeline τ} (h : t'.skeleton = t.skeleton) :
    t'.owner = t.owner := by
  have hl : t'.lineage = t.lineage := congrArg Skeleton.lineage h
  have he : t'.element = t.element := congrArg Skeleton.element h
  have hf : t'.own.isNone = t.own.isNone := congrArg Skeleton.isFirst h
  rw [owner, owner, hl, he, hf]

/-- A change to one keyframe is not seen where it changes nothing that is looked at. -/
theorem map_modify {α : Type} (view : TimedKeyframe τ → α) {f : TimedKeyframe τ → TimedKeyframe τ}
    (hf : ∀ k, view (f k) = view k) (keyframes : List (TimedKeyframe τ)) (i : Nat) :
    (keyframes.modify i f).map view = keyframes.map view := by
  -- on the keyframes, up to the one that is changed
  induction keyframes generalizing i with
  | nil => simp
  | cons k ks ih =>
    cases i with
    | zero => simp [hf]
    | succ i => simp [ih]

theorem skeleton_easePrevious (easing : Option String) (t : Timeline τ) :
    (t.easePrevious easing).skeleton = t.skeleton := by
  unfold easePrevious
  split
  · simp only [skeleton, times]
    rw [map_modify]
    exact fun _ => rfl
  · rfl

variable [Quantity τ]

/-- The skeleton says what the clock shows. -/
theorem currentTime_eq_of_skeleton_eq {t t' : Timeline τ} (h : t'.skeleton = t.skeleton) :
    t'.currentTime = t.currentTime := by
  have hs : t'.start = t.start := congrArg Skeleton.start h
  have hd : t'.duration = t.duration := congrArg Skeleton.duration h
  rw [currentTime, currentTime, hs, hd]

@[simp] theorem owner_loadKeyframe (t : Timeline τ) : t.loadKeyframe.owner = t.owner := by
  simp only [loadKeyframe]
  split <;> rfl

@[simp] theorem start_loadKeyframe (t : Timeline τ) : t.loadKeyframe.start = t.start := by
  simp only [loadKeyframe]
  split <;> rfl

@[simp] theorem duration_loadKeyframe (t : Timeline τ) : t.loadKeyframe.duration = t.duration := by
  simp only [loadKeyframe]
  split <;> rfl

end Timeline

/-! ### Many values one after another -/

namespace Scene

section Folds

variable [Quantity τ] {P : Scene τ → Prop} {s : Scene τ}

/-- The writing of styles keeps what the writing of each of them keeps. -/
theorem writeAll_induct {params : Params τ} {styles : List (String × StyleValue τ)} (h : P s)
    (hstep : ∀ u, P u → ∀ entry ∈ styles, P (u.write entry.1 (entry.2.interpolate params).1)) :
    P (s.writeAll params styles).1 := by
  induction styles generalizing s with
  | nil => exact h
  | cons entry rest ih =>
    exact ih (hstep s h entry List.mem_cons_self)
      fun u hu entry' hentry' => hstep u hu entry' (List.mem_cons_of_mem entry hentry')

/-- A snapshot keeps what the queueing and the note of each known value keep. -/
theorem snapshot_induct (h : P s)
    (hstep : ∀ u, P u → ∀ entry ∈ s.known.entries,
      P ((u.queue entry.1 entry.2).note entry.1 entry.2)) : P s.snapshot :=
  List.foldlRecOn s.known.entries _ h hstep

/-- What holds with a value from elsewhere and without it holds whichever is newer. -/
theorem noteIfNewer_induct {property : String} {theirs : StyleAtTime τ} (h : P s)
    (hnote : P (s.note property theirs.value)) : P (s.noteIfNewer property theirs) := by
  unfold noteIfNewer
  split
  · exact hnote
  · split
    · exact hnote
    · -- what this timeline wrote itself stands
      exact h

/-- A merge keeps what the note of each value in the other summary keeps. -/
theorem merge_induct {other : Timeline τ} (h : P s)
    (hstep : ∀ u, P u → ∀ entry ∈ other.summary.entries, P (u.note entry.1 entry.2.value)) :
    P (s.merge other) :=
  List.foldlRecOn other.summary.entries _ h fun u hu entry hentry =>
    noteIfNewer_induct hu (hstep u hu entry hentry)

variable (s)

/-- A snapshot queues and notes, and leaves the rest of the timeline alone. -/
theorem timeline_snapshot :
    s.snapshot.timeline = { s.timeline with
      own := s.snapshot.timeline.own
      pending := s.snapshot.timeline.pending
      summary := s.snapshot.timeline.summary } :=
  snapshot_induct (P := fun u => u.timeline = { s.timeline with
      own := u.timeline.own, pending := u.timeline.pending, summary := u.timeline.summary })
    rfl fun u hu entry _ => by
      simp only [note, queue, onTimeline]
      rw [hu]

/-- A merge notes, and leaves the rest of the timeline alone. -/
theorem timeline_merge (other : Timeline τ) :
    (s.merge other).timeline = { s.timeline with
      own := (s.merge other).timeline.own
      summary := (s.merge other).timeline.summary } :=
  merge_induct (P := fun u => u.timeline = { s.timeline with
      own := u.timeline.own, summary := u.timeline.summary })
    rfl fun u hu entry _ => by
      simp only [note]
      rw [hu]

end Folds

/-! ### Styles keep the skeleton -/

section Styles

variable [Quantity τ] (s : Scene τ)

@[simp] theorem skeleton_note (property : String) (value : StyleValue τ) :
    (s.note property value).timeline.skeleton = s.timeline.skeleton := by
  simp [note, Timeline.skeleton, Timeline.times]

omit [Quantity τ] in
@[simp] theorem skeleton_queue (property : String) (value : StyleValue τ) :
    (s.queue property value).timeline.skeleton = s.timeline.skeleton := rfl

omit [Quantity τ] in
@[simp] theorem skeleton_backfill (property : String) :
    (s.backfill property).timeline.skeleton = s.timeline.skeleton := by
  unfold backfill
  split <;> rfl

/-- To write a value leaves the skeleton as it is. -/
@[simp] theorem skeleton_write (property : String) (value : StyleValue τ) :
    (s.write property value).timeline.skeleton = s.timeline.skeleton := by
  rw [write, skeleton_note, skeleton_backfill, skeleton_queue]

theorem skeleton_writeAll (params : Params τ) (styles : List (String × StyleValue τ))
    (s : Scene τ) : (s.writeAll params styles).1.timeline.skeleton = s.timeline.skeleton :=
  writeAll_induct (P := fun u => u.timeline.skeleton = s.timeline.skeleton) rfl
    fun u hu _ _ => (u.skeleton_write _ _).trans hu

/-- So do styles with an easing. -/
theorem skeleton_setStyles (entries : List (StyleEntry τ)) (easing : Option String)
    (params : Params τ) :
    (s.setStyles entries easing params).1.timeline.skeleton = s.timeline.skeleton := by
  rw [setStyles, skeleton_writeAll]
  exact Timeline.skeleton_easePrevious easing s.timeline

omit [Quantity τ] in
theorem skeleton_setEmptyStep (easing : Option String) :
    (s.setEmptyStep easing).timeline.skeleton = s.timeline.skeleton := by
  rw [← Timeline.skeleton_easePrevious easing s.timeline]
  simp only [setEmptyStep, onTimeline, Timeline.modifyCurrent, Timeline.skeleton, Timeline.times]
  rw [Timeline.map_modify]
  exact fun _ => rfl

omit [Quantity τ] in
/-- To finish a keyframe changes its styles alone. -/
@[simp] theorem skeleton_flush : s.flush.timeline.skeleton = s.timeline.skeleton := by
  unfold flush
  split
  · rfl
  · simp only [onTimeline, Timeline.modifyCurrent, Timeline.skeleton, Timeline.times]
    rw [Timeline.map_modify]
    exact fun _ => rfl

omit [Quantity τ] in
@[simp] theorem summary_flush : s.flush.timeline.summary = s.timeline.summary := by
  unfold flush
  split <;> rfl

/-- A snapshot leaves the skeleton as it is. -/
theorem skeleton_snapshot : s.snapshot.timeline.skeleton = s.timeline.skeleton :=
  snapshot_induct (P := fun u => u.timeline.skeleton = s.timeline.skeleton) rfl
    fun u hu entry _ => (skeleton_note (u.queue entry.1 entry.2) _ _).trans hu

@[simp] theorem skeleton_noteIfNewer (property : String) (theirs : StyleAtTime τ) :
    (s.noteIfNewer property theirs).timeline.skeleton = s.timeline.skeleton :=
  noteIfNewer_induct (P := fun u => u.timeline.skeleton = s.timeline.skeleton) rfl
    (s.skeleton_note property theirs.value)

/-- And so does a merge. -/
theorem skeleton_merge (other : Timeline τ) :
    (s.merge other).timeline.skeleton = s.timeline.skeleton :=
  merge_induct (P := fun u => u.timeline.skeleton = s.timeline.skeleton) rfl
    fun u hu _ _ => (u.skeleton_note _ _).trans hu

end Styles

end Scene

/-! ### Changes -/

/-- What can happen to the timeline of a scene. -/
inductive Change (τ : Type) where
  /-- The timeline as a whole gets an easing. -/
  | ease (easing : Option String)
  | nextFrame
  | moveTo (time : τ)
  | delay (time : τ)
  | write (entries : List (StyleEntry τ)) (easing : Option String) (params : Params τ)
  | emptyStep (easing : Option String)
  | flush
  | snapshot

namespace Scene

variable [Quantity τ]

/-- What a change makes of a scene. -/
def change (s : Scene τ) : Change τ → Scene τ
  | .ease easing => s.onTimeline ({ · with easing := easing })
  | .nextFrame => s.onTimeline Timeline.forwardFrame
  | .moveTo time => s.forwardTo time
  | .delay time => s.delayNextStep time
  | .write entries easing params => (s.setStyles entries easing params).1
  | .emptyStep easing => s.setEmptyStep easing
  | .flush => s.flush
  | .snapshot => s.snapshot

/-- To move on keeps whose timeline it is. -/
@[simp] theorem owner_forwardTo (s : Scene τ) (time : τ) :
    (s.forwardTo time).timeline.owner = s.timeline.owner := by
  show ({ s.flush.timeline with duration := time } : Timeline τ).loadKeyframe.owner = _
  rw [Timeline.owner_loadKeyframe]
  show s.flush.timeline.owner = _
  exact Timeline.owner_eq_of_skeleton_eq s.skeleton_flush

/-- To move on leaves the start where it is. -/
@[simp] theorem start_forwardTo (s : Scene τ) (time : τ) :
    (s.forwardTo time).timeline.start = s.timeline.start := by
  show ({ s.flush.timeline with duration := time } : Timeline τ).loadKeyframe.start = _
  rw [Timeline.start_loadKeyframe]
  exact congrArg Skeleton.start s.skeleton_flush

@[simp] theorem duration_forwardTo (s : Scene τ) (time : τ) :
    (s.forwardTo time).timeline.duration = time :=
  Timeline.duration_loadKeyframe _

/-- The current time is counted from the start. -/
theorem currentTime_forwardTo (s : Scene τ) (time : τ) :
    (s.forwardTo time).timeline.currentTime = s.timeline.start + time := by
  rw [Timeline.currentTime, start_forwardTo, duration_forwardTo]

theorem owner_delayNextStep (s : Scene τ) (time : τ) :
    (s.delayNextStep time).timeline.owner = s.timeline.owner := by
  -- a delay moves the start, or the clock with a snapshot of what is known or without
  simp only [delayNextStep]
  split
  · split
    · rw [Timeline.owner_eq_of_skeleton_eq (skeleton_snapshot _), owner_forwardTo]
    · exact owner_forwardTo s _
  · rfl

/-- A delay moves the start of a timeline on which nothing has happened. -/
theorem delayNextStep_of_begin (hzero : ((0 : τ) == 0) = true) {s : Scene τ} {lineage : Nat}
    {element : ElementId} {start : τ} {own : Option (StyleMap τ)}
    (h : s.timeline = .begin lineage element start own) (time : τ) :
    (s.delayNextStep time).timeline = .begin lineage element (start + time) own := by
  simp [delayNextStep, h, Timeline.begin, OrderedMap.isEmpty, onTimeline, bne, hzero]

/-- No change makes a timeline another element's. -/
theorem owner_change (s : Scene τ) (c : Change τ) :
    (s.change c).timeline.owner = s.timeline.owner := by
  -- three changes move the clock; the others keep the skeleton
  cases c with
  | ease easing => rfl
  | nextFrame => exact Timeline.owner_loadKeyframe _
  | moveTo time => exact owner_forwardTo s time
  | delay time => exact owner_delayNextStep s time
  | write entries easing params =>
    exact Timeline.owner_eq_of_skeleton_eq (s.skeleton_setStyles entries easing params)
  | emptyStep easing => exact Timeline.owner_eq_of_skeleton_eq (s.skeleton_setEmptyStep easing)
  | flush => exact Timeline.owner_eq_of_skeleton_eq s.skeleton_flush
  | snapshot => exact Timeline.owner_eq_of_skeleton_eq s.skeleton_snapshot

/-- Nor does a merge. -/
theorem owner_merge (s : Scene τ) (other : Timeline τ) :
    (s.merge other).timeline.owner = s.timeline.owner :=
  Timeline.owner_eq_of_skeleton_eq (s.skeleton_merge other)

end Scene

end Choreography
