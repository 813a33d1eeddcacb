/-
Choreography/Proofs/Effect.lean

What a node may do to a walk.

Compiling a node is a run of operations on the score, all of which are aimed at the
timeline of the scope or at timelines that were entered since (`Walk.Effect`).  So
nodes do not disturb one another: whatever else was entered before stays as it is
(`Effect.timeline_eq`), and entries and diagnostics are only added.

An effect composes with the next one, and the effect of a subtree on the scope that was
entered for it is an effect on the outer scope (`Effect.leave`).  The effect of each
node kind is put together from these two; `Animation.effect` is the induction that ties
them together.  It asks nothing of the tree, the host or the numbers.
-/
import Choreography.Proofs.Operation
import Choreography.Proofs.Tree

namespace Choreography

variable {τ : Type} [Quantity τ]

/-- Whether an operation is aimed at a given timeline, at one of those from `n` on, or at
none. -/
def Operation.Within (line : TimelineId) (n : Nat) (op : Operation τ) : Prop :=
  ∀ id, op.target? = some id → id = line ∨ n ≤ id

namespace Walk

/-! ### Effects -/

/-- The scope of a walk stands on a timeline of its element, and every listed timeline is
there. -/
structure Valid (w : Walk τ) : Prop where
  timeline : w.scope.timeline < w.score.timelines.length
  element : w.timeline.element = w.scope.element
  listed : w.score.Listed

/-- Only the score and the place of the scope in it matter. -/
theorem Valid.of_eq {w u : Walk τ} (h : w.Valid) (hs : u.score = w.score)
    (ht : u.scope.timeline = w.scope.timeline) (he : u.scope.element = w.scope.element) :
    u.Valid := by
  refine ⟨?_, ?_, ?_⟩
  · rw [hs, ht]
    exact h.timeline
  · rw [Walk.timeline, hs, ht, he]
    exact h.element
  · rw [hs]
    exact h.listed

/-- What a node may do to a walk. -/
structure Effect (w w' : Walk τ) : Prop where
  operations : ∃ ops : List (Operation τ),
    (∀ op ∈ ops, op.Within w.scope.timeline w.score.timelines.length) ∧
      w'.score = w.score.performAll ops
  diagnostics : w.diagnostics <+: w'.diagnostics
  element : w'.scope.element = w.scope.element
  timeline : w'.scope.timeline = w.scope.timeline ∨ w.score.timelines.length ≤ w'.scope.timeline
  valid : w.Valid → w'.Valid

namespace Effect

variable {w w₁ w₂ : Walk τ}

theorem length_le (h : Effect w w₁) : w.score.timelines.length ≤ w₁.score.timelines.length := by
  obtain ⟨ops, -, hs⟩ := h.operations
  rw [hs]
  exact Score.length_timelines_performAll _ ops

/-- Timelines that were there before stay as they are, except the one of the scope. -/
theorem timeline_eq (h : Effect w w₁) {id : TimelineId} (hid : id < w.score.timelines.length)
    (hne : id ≠ w.scope.timeline) : w₁.score.timeline id = w.score.timeline id := by
  obtain ⟨ops, hops, hs⟩ := h.operations
  rw [hs]
  refine Score.timeline_performAll hid fun op hop htarget => ?_
  rcases hops op hop id htarget with rfl | hge
  · exact hne rfl
  · exact absurd hid (Nat.not_lt.2 hge)

theorem owner_eq (h : Effect w w₁) {id : TimelineId} (hid : id < w.score.timelines.length) :
    (w₁.score.timeline id).owner = (w.score.timeline id).owner := by
  obtain ⟨ops, -, hs⟩ := h.operations
  rw [hs]
  exact Score.owner_performAll ops hid

theorem refl (w : Walk τ) : Effect w w where
  operations := ⟨[], by simp, rfl⟩
  diagnostics := List.prefix_refl _
  element := rfl
  timeline := .inl rfl
  valid := id

/-- One effect after another is an effect. -/
theorem trans (h : Effect w w₁) (h' : Effect w₁ w₂) : Effect w w₂ where
  operations := by
    obtain ⟨ops, hops, hs⟩ := h.operations
    obtain ⟨ops', hops', hs'⟩ := h'.operations
    refine ⟨ops ++ ops', ?_, by rw [Score.performAll_append, ← hs, hs']⟩
    intro op hop
    rcases List.mem_append.1 hop with hop | hop
    · exact hops op hop
    · intro id hid
      -- the second effect is aimed at the timeline of the scope in between, which is the first one
      -- or entered since
      rcases hops' op hop id hid with rfl | hge
      · exact h.timeline
      · exact .inr (Nat.le_trans h.length_le hge)
  diagnostics := h.diagnostics.trans h'.diagnostics
  element := h'.element.trans h.element
  timeline := by
    rcases h'.timeline with he | hge
    · rw [he]
      exact h.timeline
    · exact .inr (Nat.le_trans h.length_le hge)
  valid := h'.valid ∘ h.valid

/-- An operation on the timeline of the scope. -/
theorem perform (op : Operation τ) (hop : ∀ id, op.target? = some id → id = w.scope.timeline) :
    Effect w { w with score := w.score.perform op } where
  operations := ⟨[op], by
    intro o ho id hid
    rw [List.mem_singleton] at ho
    exact .inl (hop id (ho ▸ hid)), rfl⟩
  diagnostics := List.prefix_refl _
  element := rfl
  timeline := .inl rfl
  valid := by
    intro hv
    have howner := Score.owner_perform (s := w.score) op hv.timeline
    exact {
      timeline := Nat.lt_of_lt_of_le hv.timeline (Score.length_timelines_perform _ op)
      element := (congrArg (fun o => o.2.1) howner).trans hv.element
      listed := Score.listed_perform op hv.listed }

/-- A change of the timeline of the scope is an effect. -/
theorem change (w : Walk τ) (c : Change τ) : Effect w (w.edit (·.change c)) :=
  perform (.change w.scope.timeline c) fun _ hid => (Option.some.inj hid).symm

/-- What is known of a scope apart from its element and its timeline does not matter. -/
theorem rescope (w : Walk τ) (scope : Scope τ) (he : scope.element = w.scope.element)
    (ht : scope.timeline = w.scope.timeline) : Effect w { w with scope := scope } where
  operations := ⟨[], by simp, rfl⟩
  diagnostics := List.prefix_refl _
  element := he
  timeline := .inl ht
  valid := fun hv => hv.of_eq rfl ht he

theorem report (w : Walk τ) (reports : List Diagnostic) : Effect w (w.report reports) where
  operations := ⟨[], by simp, rfl⟩
  diagnostics := List.prefix_append _ _
  element := rfl
  timeline := .inl rfl
  valid := fun hv => hv.of_eq rfl rfl rfl

end Effect

/-! ### Reading timings -/

/-- What is read of a timing depends on the parameters in force only. -/
theorem readTiming_congr {w u : Walk τ} (h : u.scope.options.params = w.scope.options.params)
    (timing : Timing τ) (allowNegative : Bool) :
    (u.readTiming timing allowNegative).1 = (w.readTiming timing allowNegative).1 := by
  cases timing with
  | fixed t => rfl
  | expression text => simp only [readTiming, h]

theorem scope_readTiming (timing : Timing τ) (allowNegative : Bool) (w : Walk τ) :
    (w.readTiming timing allowNegative).2.scope = w.scope := by
  cases timing with
  | fixed t => rfl
  | expression text => simp only [readTiming, report]

theorem score_readTiming (timing : Timing τ) (allowNegative : Bool) (w : Walk τ) :
    (w.readTiming timing allowNegative).2.score = w.score := by
  cases timing with
  | fixed t => rfl
  | expression text => simp only [readTiming, report]

/-! ### Entering and leaving -/

/-- To enter a scope is to fork the timeline of the one around. -/
theorem enter_score (w : Walk τ) (options : Option (Options τ)) (element : ElementId) :
    (w.enter options element).score = w.score.perform (.fork w.scope.timeline element none) := by
  cases options <;> rfl

/-- The scope that is entered stands on the next timeline. -/
theorem enter_timeline (w : Walk τ) (options : Option (Options τ)) (element : ElementId) :
    (w.enter options element).scope.timeline = w.score.timelines.length := by
  rw [← Score.fork_fst w.score w.scope.timeline element none]
  cases options <;> rfl

theorem enter_element (w : Walk τ) (options : Option (Options τ)) (element : ElementId) :
    (w.enter options element).scope.element = element := by
  cases options <;> rfl

theorem enter_diagnostics (w : Walk τ) (options : Option (Options τ)) (element : ElementId) :
    w.diagnostics <+: (w.enter options element).diagnostics := by
  cases options <;> exact List.prefix_append _ _

/-- The timeline of a scope that was just entered. -/
theorem enter_timeline_eq (w : Walk τ) (options : Option (Options τ)) (element : ElementId) :
    ∃ lineage own, (w.enter options element).timeline =
      .begin lineage element w.currentTime own := by
  rw [Walk.timeline, enter_score, enter_timeline]
  exact Score.timeline_fork_self w.score w.scope.timeline element none

theorem enter_length (w : Walk τ) (options : Option (Options τ)) (element : ElementId) :
    (w.enter options element).score.timelines.length = w.score.timelines.length + 1 := by
  rw [enter_score]
  exact Score.length_timelines_fork w.score w.scope.timeline element none

theorem enter_order (w : Walk τ) (options : Option (Options τ)) (element : ElementId) :
    (w.enter options element).score.order =
      w.score.order ++ [.timeline w.score.timelines.length] := by
  rw [enter_score]
  exact Score.order_fork w.score w.scope.timeline element none

/-- The scope that is entered stands on a timeline of its element. -/
theorem Valid.enter {w : Walk τ} (h : w.Valid) (options : Option (Options τ))
    (element : ElementId) : (w.enter options element).Valid where
  timeline := by
    rw [enter_timeline, enter_length]
    exact Nat.lt_succ_self _
  element := by
    obtain ⟨lineage, own, he⟩ := enter_timeline_eq w options element
    rw [he, enter_element]
    rfl
  listed := by
    rw [enter_score]
    exact Score.listed_perform _ h.listed

/-- The timeline of the scope is new, and starts at a given time. -/
structure Begins (w : Walk τ) (start : τ) : Prop where
  timeline : w.scope.timeline < w.score.timelines.length
  new : ∃ lineage element own, w.timeline = .begin lineage element start own

/-- The timeline of the scope starts there. -/
theorem Begins.start_eq {w : Walk τ} {start : τ} (h : w.Begins start) :
    w.timeline.start = start := by
  obtain ⟨lineage, element, own, hnew⟩ := h.new
  rw [hnew]
  rfl

theorem Begins.of_eq {w u : Walk τ} {start : τ} (h : w.Begins start) (hs : u.score = w.score)
    (ht : u.scope.timeline = w.scope.timeline) : u.Begins start where
  timeline := by
    rw [hs, ht]
    exact h.timeline
  new := by
    rw [Walk.timeline, hs, ht]
    exact h.new

/-- A scope that is entered begins where the one around stands. -/
theorem begins_enter (options : Option (Options τ)) (element : ElementId) (w : Walk τ) :
    (w.enter options element).Begins w.currentTime where
  timeline := by
    rw [enter_timeline, enter_length]
    exact Nat.lt_succ_self _
  new := by
    obtain ⟨lineage, own, hnew⟩ := enter_timeline_eq w options element
    exact ⟨lineage, element, own, hnew⟩

/-- A delay moves the start of a new timeline, and makes no keyframe. -/
theorem Begins.delay {w : Walk τ} {start : τ} (hzero : ((0 : τ) == 0) = true)
    (h : w.Begins start) (time : τ) :
    (w.delay time).Begins (if 0 < time then start + time else start) := by
  -- only a positive delay is waited for
  unfold Walk.delay
  split
  · obtain ⟨lineage, element, own, hnew⟩ := h.new
    refine ⟨?_, lineage, element, own, ?_⟩
    · show w.scope.timeline < (w.score.edit _ _).timelines.length
      rw [Score.length_timelines_edit]
      exact h.timeline
    · show (w.score.edit w.scope.timeline _).timeline w.scope.timeline = _
      rw [Score.timeline_edit_self _ h.timeline]
      exact Scene.delayNextStep_of_begin hzero hnew time
  · exact h

/-- What a subtree does to the scope that was entered for it is an effect on the outer
one.  The outer scope may have changed in the meantime, but not its timeline. -/
theorem Effect.leave {w u inner : Walk τ} {options : Option (Options τ)} {element : ElementId}
    (hs : u.score = w.score) (hd : u.diagnostics = w.diagnostics)
    (ht : u.scope.timeline = w.scope.timeline) (h : Effect (u.enter options element) inner) :
    Effect w (leave w.scope inner) := by
  obtain ⟨ops, hops, hinner⟩ := h.operations
  -- from outside, the fork for the scope is the first operation
  have hscore : inner.score = w.score.performAll (.fork w.scope.timeline element none :: ops) := by
    rw [hinner, enter_score, hs, ht, Score.performAll_cons]
  refine ⟨⟨.fork w.scope.timeline element none :: ops, ?_, hscore⟩, ?_, rfl, .inl rfl, ?_⟩
  · intro op hop id hid
    rcases List.mem_cons.1 hop with rfl | hop
    · exact .inl (Option.some.inj hid).symm
    · -- what the subtree is aimed at was entered since
      rw [enter_timeline, enter_length, hs] at hops
      rcases hops op hop id hid with rfl | hge
      · exact .inr (Nat.le_refl _)
      · exact .inr (Nat.le_of_succ_le hge)
  · rw [← hd]
    exact (enter_diagnostics u options element).trans h.diagnostics
  · intro hv
    refine ⟨?_, ?_, ?_⟩
    · show w.scope.timeline < inner.score.timelines.length
      rw [hscore]
      exact Nat.lt_of_lt_of_le hv.timeline (Score.length_timelines_performAll _ _)
    · show (inner.score.timeline w.scope.timeline).element = w.scope.element
      rw [hscore, ← hv.element]
      exact congrArg (fun o => o.2.1) (Score.owner_performAll _ hv.timeline)
    · show inner.score.Listed
      rw [hscore]
      exact Score.listed_performAll _ hv.listed

/-- A subtree in a scope of its own only finishes the keyframe of the outer timeline. -/
theorem Effect.timeline_leave {w u inner : Walk τ} {options : Option (Options τ)}
    {element : ElementId} (hv : w.Valid) (hs : u.score = w.score)
    (ht : u.scope.timeline = w.scope.timeline) (h : Effect (u.enter options element) inner) :
    (Walk.leave w.scope inner).timeline = (w.score.scene w.scope.timeline).flush.timeline := by
  have hlt : w.scope.timeline < (u.enter options element).score.timelines.length := by
    rw [enter_length, hs]
    exact Nat.lt_succ_of_lt hv.timeline
  -- the subtree is aimed at timelines that are later than that of the outer scope
  have hne : w.scope.timeline ≠ (u.enter options element).scope.timeline := by
    rw [enter_timeline, hs]
    exact Nat.ne_of_lt hv.timeline
  show inner.score.timeline w.scope.timeline = _
  rw [h.timeline_eq hlt hne, enter_score, hs, ht]
  show (w.score.fork w.scope.timeline element none).2.timeline w.scope.timeline = _
  rw [Score.timeline_fork_of_lt _ _ _ hv.timeline, Score.timeline_edit_self _ hv.timeline]

/-! ### Sparing the timeline of the scope -/

/-- The scope stands on the same timeline as before, whose clock and own writes are as they
were. -/
structure Spared (w w' : Walk τ) : Prop where
  element : w'.scope.element = w.scope.element
  line : w'.scope.timeline = w.scope.timeline
  skeleton : w'.timeline.skeleton = w.timeline.skeleton
  summary : w'.timeline.summary = w.timeline.summary

theorem Spared.refl (w : Walk τ) : Spared w w := ⟨rfl, rfl, rfl, rfl⟩

/-- What is spared twice is spared. -/
theorem Spared.trans {w w₁ w₂ : Walk τ} (h : Spared w w₁) (h' : Spared w₁ w₂) : Spared w w₂ :=
  ⟨h'.element.trans h.element, h'.line.trans h.line, h'.skeleton.trans h.skeleton,
    h'.summary.trans h.summary⟩

/-- The clock stands where it stood. -/
theorem Spared.currentTime_eq {w w' : Walk τ} (h : Spared w w') : w'.currentTime = w.currentTime :=
  Timeline.currentTime_eq_of_skeleton_eq h.skeleton

/-- What happens in a scope that was entered and left again does not concern the outer
timeline. -/
theorem spared_leave {w u inner : Walk τ} {options : Option (Options τ)} {element : ElementId}
    (hv : w.Valid) (hs : u.score = w.score) (ht : u.scope.timeline = w.scope.timeline)
    (h : Effect (u.enter options element) inner) : Spared w (leave w.scope inner) where
  element := rfl
  line := rfl
  skeleton := by
    rw [h.timeline_leave hv hs ht]
    exact Scene.skeleton_flush _
  summary := by
    rw [h.timeline_leave hv hs ht]
    exact Scene.summary_flush _

end Walk

end Choreography
