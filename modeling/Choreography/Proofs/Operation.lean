/-
Choreography/Proofs/Operation.lean

What can happen to a score.

An `Operation` begins a lineage, forks a timeline, changes one, takes note on one of
what another wrote, or enters a placement; a run performs a list of them
(`Score.performAll`).  Whatever is true after every run of operations is true of every
score there is.

The lemmas say what a run leaves alone: entries stay listed in the order in which they
were entered (`order_prefix_performAll`), a timeline stays its element's
(`owner_performAll`), and a timeline that no operation is aimed at stays as it is
(`timeline_performAll`).
-/
import Choreography.Proofs.Skeleton
import Choreography.Timeline.Score

namespace Choreography

variable {τ : Type}

/-- What can happen to a score. -/
inductive Operation (τ : Type) where
  | begin (element : ElementId) (start : τ)
  | fork (id : TimelineId) (element : ElementId) (at? : Option τ)
  | change (id : TimelineId) (c : Change τ)
  | merge (into source : TimelineId)
  | place (p : Placement τ)

/-- The timeline that an operation is aimed at. -/
def Operation.target? : Operation τ → Option TimelineId
  | .begin .. => none
  | .fork id _ _ => some id
  | .change id _ => some id
  | .merge into _ => some into
  | .place _ => none

namespace Score

variable [Quantity τ]

/-- What an operation makes of a score. -/
def perform (s : Score τ) : Operation τ → Score τ
  | .begin element start => (s.begin element start).2
  | .fork id element at? => (s.fork id element at?).2
  | .change id c => s.edit id (·.change c)
  | .merge into source => s.merge into source
  | .place p => s.place p

/-- Performs operations one after another. -/
def performAll (s : Score τ) (ops : List (Operation τ)) : Score τ := ops.foldl perform s

@[simp] theorem performAll_nil (s : Score τ) : s.performAll [] = s := rfl

@[simp] theorem performAll_cons (s : Score τ) (op : Operation τ) (ops : List (Operation τ)) :
    s.performAll (op :: ops) = (s.perform op).performAll ops := rfl

/-- Runs are performed one after another. -/
theorem performAll_append (s : Score τ) (xs ys : List (Operation τ)) :
    s.performAll (xs ++ ys) = (s.performAll xs).performAll ys := by
  rw [performAll, List.foldl_append]
  rfl

/-! ### Putting and entering -/

/-- A scene is put back on its timeline, if it has one. -/
theorem timeline_put (s : Score τ) (id id' : TimelineId) (scene : Scene τ) :
    (s.put id scene).timeline id' =
      if id = id' ∧ id < s.timelines.length then scene.timeline else s.timeline id' := by
  simp only [timeline, put, List.getD_eq_getElem?_getD, List.getElem?_set]
  by_cases h : id = id'
  · subst h
    by_cases hl : id < s.timelines.length
    · simp [hl]
    · simp [hl]
  · simp [h]

@[simp] theorem length_timelines_edit (s : Score τ) (id : TimelineId) (f : Scene τ → Scene τ) :
    (s.edit id f).timelines.length = s.timelines.length := by
  simp [edit, put]

@[simp] theorem order_edit (s : Score τ) (id : TimelineId) (f : Scene τ → Scene τ) :
    (s.edit id f).order = s.order := rfl

/-- An edit changes the timeline that it is aimed at. -/
theorem timeline_edit_self {s : Score τ} {id : TimelineId} (f : Scene τ → Scene τ)
    (h : id < s.timelines.length) : (s.edit id f).timeline id = (f (s.scene id)).timeline := by
  rw [edit, timeline_put, if_pos ⟨rfl, h⟩]

theorem timeline_edit_of_ne {s : Score τ} {id id' : TimelineId} (f : Scene τ → Scene τ)
    (h : id ≠ id') : (s.edit id f).timeline id' = s.timeline id' := by
  rw [edit, timeline_put, if_neg fun e => h e.1]

/-- A property of timelines that the edited one does not lose is lost by none. -/
theorem timeline_edit_induct {P : Timeline τ → Prop} {s : Score τ} {id : TimelineId}
    {f : Scene τ → Scene τ} (hf : P (s.timeline id) → P (f (s.scene id)).timeline)
    {id' : TimelineId} (h : P (s.timeline id')) : P ((s.edit id f).timeline id') := by
  rw [edit, timeline_put]
  split
  · rename_i hid
    exact hf (hid.1 ▸ h)
  · exact h

/-- A new timeline has the next handle. -/
@[simp] theorem enter_fst (s : Score τ) (lineage : Nat) (element : ElementId) (start : τ) :
    (s.enter lineage element start).1 = s.timelines.length := rfl

@[simp] theorem length_timelines_enter (s : Score τ) (lineage : Nat) (element : ElementId)
    (start : τ) :
    (s.enter lineage element start).2.timelines.length = s.timelines.length + 1 := by
  simp [enter]

@[simp] theorem order_enter (s : Score τ) (lineage : Nat) (element : ElementId) (start : τ) :
    (s.enter lineage element start).2.order = s.order ++ [.timeline s.timelines.length] := rfl

/-- The old timelines stay. -/
theorem timeline_enter_of_lt {s : Score τ} {id : TimelineId} (lineage : Nat)
    (element : ElementId) (start : τ) (h : id < s.timelines.length) :
    (s.enter lineage element start).2.timeline id = s.timeline id := by
  simp only [timeline, enter, List.getD_eq_getElem?_getD, List.getElem?_append_left h]

/-- The new one has a memory of its own if its element is known. -/
theorem timeline_enter_self (s : Score τ) (lineage : Nat) (element : ElementId) (start : τ) :
    (s.enter lineage element start).2.timeline s.timelines.length =
      .begin lineage element start
        (if s.shared.contains (lineage, element) then some ∅ else none) := by
  by_cases h : s.shared.contains (lineage, element) <;> simp [timeline, enter, h]

/-- The time at which a fork starts. -/
def forkTime (s : Score τ) (id : TimelineId) : Option τ → τ
  | some time => if time != 0 then time else (s.timeline id).currentTime
  | none => (s.timeline id).currentTime

/-- To finish a keyframe moves no clock. -/
theorem currentTime_edit_flush (s : Score τ) (id id' : TimelineId) :
    ((s.edit id Scene.flush).timeline id').currentTime = (s.timeline id').currentTime := by
  apply timeline_edit_induct (P := fun t => t.currentTime = (s.timeline id').currentTime) _ rfl
  intro h
  rw [← h]
  exact Timeline.currentTime_eq_of_skeleton_eq (s.scene id).skeleton_flush

/-- A fork finishes the keyframe, and enters a timeline of the same lineage. -/
theorem fork_eq (s : Score τ) (id : TimelineId) (element : ElementId) (at? : Option τ) :
    s.fork id element at? =
      (s.edit id Scene.flush).enter ((s.edit id Scene.flush).timeline id).lineage element
        (s.forkTime id at?) := by
  have h := s.currentTime_edit_flush id id
  cases at? with
  | none => simp only [fork, forkTime, h]
  | some time => simp only [fork, forkTime, h]

@[simp] theorem fork_fst (s : Score τ) (id : TimelineId) (element : ElementId) (at? : Option τ) :
    (s.fork id element at?).1 = s.timelines.length := by
  rw [fork_eq, enter_fst, length_timelines_edit]

@[simp] theorem length_timelines_fork (s : Score τ) (id : TimelineId) (element : ElementId)
    (at? : Option τ) : (s.fork id element at?).2.timelines.length = s.timelines.length + 1 := by
  rw [fork_eq, length_timelines_enter, length_timelines_edit]

@[simp] theorem order_fork (s : Score τ) (id : TimelineId) (element : ElementId)
    (at? : Option τ) :
    (s.fork id element at?).2.order = s.order ++ [.timeline s.timelines.length] := by
  rw [fork_eq, order_enter, length_timelines_edit, order_edit]

/-- The timeline that a fork enters. -/
theorem timeline_fork_self (s : Score τ) (id : TimelineId) (element : ElementId)
    (at? : Option τ) :
    ∃ lineage own, (s.fork id element at?).2.timeline s.timelines.length =
      .begin lineage element (s.forkTime id at?) own := by
  have h := timeline_enter_self (s.edit id Scene.flush)
    ((s.edit id Scene.flush).timeline id).lineage element (s.forkTime id at?)
  rw [length_timelines_edit] at h
  rw [fork_eq]
  exact ⟨_, _, h⟩

/-- A fork only finishes the keyframe of the timelines that are there. -/
theorem timeline_fork_of_lt {s : Score τ} {id' : TimelineId} (id : TimelineId)
    (element : ElementId) (at? : Option τ) (h : id' < s.timelines.length) :
    (s.fork id element at?).2.timeline id' = (s.edit id Scene.flush).timeline id' := by
  rw [fork_eq, timeline_enter_of_lt]
  rwa [length_timelines_edit]

/-! ### What an operation leaves alone -/

/-- No operation takes a timeline away. -/
theorem length_timelines_perform (s : Score τ) (op : Operation τ) :
    s.timelines.length ≤ (s.perform op).timelines.length := by
  -- two of the operations add one, the others none
  cases op with
  | begin element start =>
    show _ ≤ (Score.enter _ _ _ _).2.timelines.length
    rw [length_timelines_enter]
    exact Nat.le_succ _
  | fork id element at? =>
    show _ ≤ (s.fork id element at?).2.timelines.length
    rw [length_timelines_fork]
    exact Nat.le_succ _
  | change id c => exact Nat.le_of_eq (length_timelines_edit s id _).symm
  | merge into source =>
    show _ ≤ (s.merge into source).timelines.length
    unfold merge
    split
    · exact Nat.le_refl _
    · exact Nat.le_of_eq (length_timelines_edit s into _).symm
  | place p => exact Nat.le_refl _

/-- No operation takes an entry from the list. -/
theorem order_prefix_perform (s : Score τ) (op : Operation τ) :
    s.order <+: (s.perform op).order := by
  cases op with
  | begin element start => exact ⟨_, rfl⟩
  | fork id element at? =>
    show _ <+: (s.fork id element at?).2.order
    rw [order_fork]
    exact List.prefix_append _ _
  | change id c => exact List.prefix_refl _
  | merge into source =>
    show _ <+: (s.merge into source).order
    unfold merge
    split <;> exact List.prefix_refl _
  | place p => exact ⟨_, rfl⟩

/-- A timeline that an operation is not aimed at stays as it is. -/
theorem timeline_perform {s : Score τ} {op : Operation τ} {id : TimelineId}
    (hid : id < s.timelines.length) (h : op.target? ≠ some id) :
    (s.perform op).timeline id = s.timeline id := by
  -- two of the operations aim at no timeline, and leave all that are there alone
  cases op with
  | begin element start => exact timeline_enter_of_lt (s := { s with lineages := _ }) _ _ _ hid
  | fork source element at? =>
    have hne : source ≠ id := fun e => h (congrArg some e)
    show (s.fork source element at?).2.timeline id = _
    rw [timeline_fork_of_lt _ _ _ hid, timeline_edit_of_ne _ hne]
  | change target c => exact timeline_edit_of_ne _ fun e => h (congrArg some e)
  | merge into source =>
    have hne : into ≠ id := fun e => h (congrArg some e)
    show (s.merge into source).timeline id = _
    unfold merge
    split
    · rfl
    · exact timeline_edit_of_ne _ hne
  | place p => rfl

/-- No operation makes a timeline another element's. -/
theorem owner_perform {s : Score τ} {id : TimelineId} (op : Operation τ)
    (hid : id < s.timelines.length) :
    ((s.perform op).timeline id).owner = (s.timeline id).owner := by
  -- what an edit keeps of its own timeline it keeps of all
  have hedit : ∀ (target : TimelineId) (f : Scene τ → Scene τ),
      (f (s.scene target)).timeline.owner = (s.timeline target).owner →
        ((s.edit target f).timeline id).owner = (s.timeline id).owner := by
    intro target f hf
    exact timeline_edit_induct (P := fun t => t.owner = (s.timeline id).owner) hf.trans rfl
  cases op with
  | begin element start => rw [timeline_perform hid (by simp [Operation.target?])]
  | fork source element at? =>
    show ((s.fork source element at?).2.timeline id).owner = _
    rw [timeline_fork_of_lt _ _ _ hid]
    exact hedit source Scene.flush (Scene.owner_change _ .flush)
  | change target c => exact hedit target _ (Scene.owner_change _ c)
  | merge into source =>
    show ((s.merge into source).timeline id).owner = _
    unfold merge
    split
    · rfl
    · exact hedit into _ (Scene.owner_merge _ _)
  | place p => rfl

/-! ### What a run leaves alone -/

theorem length_timelines_performAll (s : Score τ) (ops : List (Operation τ)) :
    s.timelines.length ≤ (s.performAll ops).timelines.length := by
  induction ops generalizing s with
  | nil => exact Nat.le_refl _
  | cons op ops ih => exact Nat.le_trans (length_timelines_perform s op) (ih (s.perform op))

/-- Entries stay listed, in the order in which they were entered. -/
theorem order_prefix_performAll (s : Score τ) (ops : List (Operation τ)) :
    s.order <+: (s.performAll ops).order := by
  induction ops generalizing s with
  | nil => exact List.prefix_refl _
  | cons op ops ih => exact (order_prefix_perform s op).trans (ih (s.perform op))

/-- A timeline that no operation is aimed at stays as it is. -/
theorem timeline_performAll {s : Score τ} {ops : List (Operation τ)} {id : TimelineId}
    (hid : id < s.timelines.length) (h : ∀ op ∈ ops, op.target? ≠ some id) :
    (s.performAll ops).timeline id = s.timeline id := by
  induction ops generalizing s with
  | nil => rfl
  | cons op ops ih =>
    rw [List.forall_mem_cons] at h
    rw [performAll_cons, ih (Nat.lt_of_lt_of_le hid (length_timelines_perform s op)) h.2,
      timeline_perform hid h.1]

/-- A timeline stays its element's. -/
theorem owner_performAll {s : Score τ} {id : TimelineId} (ops : List (Operation τ))
    (hid : id < s.timelines.length) :
    ((s.performAll ops).timeline id).owner = (s.timeline id).owner := by
  induction ops generalizing s with
  | nil => rfl
  | cons op ops ih =>
    rw [performAll_cons, ih (Nat.lt_of_lt_of_le hid (length_timelines_perform s op)),
      owner_perform op hid]

/-! ### Listed timelines -/

/-- Every listed timeline is there. -/
def Listed (s : Score τ) : Prop := ∀ id, .timeline id ∈ s.order → id < s.timelines.length

/-- No operation lists a timeline that is not there. -/
theorem listed_perform {s : Score τ} (op : Operation τ) (h : s.Listed) : (s.perform op).Listed := by
  -- a handle that is given out is listed with its timeline
  have henter : ∀ (s' : Score τ) lineage element start, s'.Listed →
      (s'.enter lineage element start).2.Listed := by
    intro s' lineage element start h' id hid
    rw [length_timelines_enter]
    rw [order_enter, List.mem_append] at hid
    rcases hid with hid | hid
    · exact Nat.lt_succ_of_lt (h' id hid)
    · rw [List.mem_singleton] at hid
      cases hid
      exact Nat.lt_succ_self _
  have hedit : ∀ id (f : Scene τ → Scene τ), (s.edit id f).Listed := by
    intro id f id' hid'
    rw [length_timelines_edit]
    exact h id' hid'
  cases op with
  | begin element start => exact henter { s with lineages := _ } _ _ _ h
  | fork id element at? =>
    show (s.fork id element at?).2.Listed
    rw [fork_eq]
    exact henter _ _ _ _ (hedit id _)
  | change id c => exact hedit id _
  | merge into source =>
    show (s.merge into source).Listed
    unfold merge
    split
    · exact h
    · exact hedit into _
  | place p =>
    intro id hid
    have hid' : Entry.timeline id ∈ s.order ++ [.placed p] := hid
    rw [List.mem_append, List.mem_singleton] at hid'
    rcases hid' with hid' | hid'
    · exact h id hid'
    · cases hid'

theorem listed_performAll {s : Score τ} (ops : List (Operation τ)) (h : s.Listed) :
    (s.performAll ops).Listed := by
  induction ops generalizing s with
  | nil => exact h
  | cons op ops ih => exact ih (listed_perform op h)

end Score

end Choreography
