/-
Choreography/Proofs/Waiting.lean

What waits on the timeline that a tree starts on.

A style that was written last waits for its keyframe to be finished, so a tree may leave
something in wait.  Whenever it goes on in another timeline, enters a scope or comes to the
end of a sequence, the keyframe is finished first.  So what waits on the first timeline in the
end was written by a tree that has entered no other one (`Animation.clears`).

This is not closed under composition: a style that is written after a scope was left waits on
a timeline from which others were entered.  It holds of whole nodes, because the steps of a
sequence end by finishing the keyframe and nodes side by side end on a new timeline.
-/
import Choreography.Proofs.Matches

namespace Choreography

variable {τ : Type} [Quantity τ]

namespace Walk

/-! ### Finished keyframes -/

/-- Either the same timelines are there as before, or nothing waits on the first one. -/
def Clears (w w' : Walk τ) : Prop :=
  w'.score.timelines.length = w.score.timelines.length ∨
    (w'.score.timeline w.scope.timeline).pending.isEmpty = true

variable {w u w₁ w₂ : Walk τ}

/-- Where the walk is on another timeline than before, nothing waits on the first one. -/
theorem Finishes.clears (h : Finishes w w₁) (hw : w.Valid)
    (hline : w₁.scope.timeline ≠ w.scope.timeline) : Clears w w₁ :=
  .inr ((h.pending hw.timeline).resolve_left hline)

/-- Going on in a new timeline finishes the keyframe of the first one at the latest. -/
theorem Finishes.clears_renew (h : Finishes w w₁) (hw : w.Valid) (at? : Option τ) :
    Clears w (w₁.renew at?) := by
  -- a new timeline comes after all that were there
  refine (h.trans (Finishes.compositional.renew at? w₁)).clears hw ?_
  rw [renew_timeline]
  exact Nat.ne_of_gt (Nat.lt_of_lt_of_le hw.timeline h.effect.length_le)

/-- So does a scope of its own. -/
theorem clears_leave {inner : Walk τ} {options : Option (Options τ)} {element : ElementId}
    (hw : w.Valid) (hs : u.score = w.score) (ht : u.scope.timeline = w.scope.timeline)
    (h : Effect (u.enter options element) inner) : Clears w (leave w.scope inner) := by
  refine .inr ?_
  -- to enter the scope was to fork the timeline, which finished its keyframe
  have hline := h.timeline_leave hw hs ht
  rw [Walk.timeline] at hline
  show ((leave w.scope inner).score.timeline (leave w.scope inner).scope.timeline).pending.isEmpty
    = true
  rw [hline]
  exact Scene.pending_flush _

/-- Nothing is entered for a style. -/
theorem length_style (step : StyleStep τ) (w : Walk τ) :
    (w.style step).score.timelines.length = w.score.timelines.length := by
  -- with or without entries, a style is an edit of one timeline
  have hwrite : ∀ (easing : Option String) (w : Walk τ),
      (if step.entries.isEmpty then w.edit (Scene.setEmptyStep easing)
        else w.writeAt w.scope.timeline step.entries easing).score.timelines.length =
          w.score.timelines.length := by
    intro easing w
    split
    · exact Score.length_timelines_edit _ _ _
    · exact Score.length_timelines_edit _ _ fun s => (s.setStyles step.entries easing _).1
  refine (hwrite _ _).trans ?_
  split
  · exact Score.length_timelines_edit _ _ _
  · rfl

theorem length_openAnimate (timings : Timings τ) (w : Walk τ) :
    (w.openAnimate timings).score.timelines.length = w.score.timelines.length := by
  simp only [openAnimate]
  split
  · exact (Score.length_timelines_edit _ _ _).trans (Score.length_timelines_edit _ _ _)
  · rfl

theorem length_delay (time : τ) (w : Walk τ) :
    (w.delay time).score.timelines.length = w.score.timelines.length := by
  unfold delay
  split
  · exact Score.length_timelines_edit _ _ _
  · rfl

/-! ### Nodes -/

theorem Clears.after {v : Walk τ} (h : Clears w v) (kind : Kind) : Clears w (v.after kind) := h

theorem Clears.of_eq {v : Walk τ} (h : Clears u v)
    (hlength : u.score.timelines.length = w.score.timelines.length)
    (hline : u.scope.timeline = w.scope.timeline) : Clears w v := by
  unfold Clears at h ⊢
  rwa [hlength, hline] at h

/-- Keyframes clear the timeline by going on in a new one. -/
theorem clears_keyframes (steps : List (StyleStep τ)) (hw : w.Valid) :
    Clears w (w.keyframes steps) := by
  have hc : Compositional (Finishes : Walk τ → Walk τ → Prop) := Finishes.compositional
  cases ht : w.scope.timings with
  | none =>
    simp only [keyframes, ht]
    exact .inl rfl
  | some timings =>
    rw [keyframes_eq ht]
    have hinner : Finishes (w.enter none w.scope.element)
        ((w.openKeyframes timings).playKeyframes timings.duration
          (steps.zip (resolvedOffsets steps))) :=
      hc.trans (hc.change _ (.ease timings.easing)) (hc.playKeyframes _ _ _)
    exact ((hc.trans (hc.leave rfl rfl rfl hinner) (hc.gather _ _)).clears_renew hw _).after _

/-- An animated step enters a timeline for keyframes only. -/
theorem clears_animate (timing : Timing τ) (target : Target τ) (hw : w.Valid) :
    Clears w (w.animate timing target) := by
  have hread : (w.readTiming timing false).2.score = w.score := score_readTiming timing false w
  have hopen := (length_openAnimate (w.readTiming timing false).1
    (w.readTiming timing false).2).trans (by rw [hread])
  -- the styles of a step wait on the timeline, but then none was entered
  cases target with
  | style step =>
    exact .inl ((Score.length_timelines_edit _ _ _).trans
      ((length_style step _).trans ((Score.length_timelines_edit _ _ _).trans hopen)))
  | keyframes steps =>
    have hvalid : ((w.readTiming timing false).2.openAnimate
        (w.readTiming timing false).1).Valid :=
      (Effect.compositional.openAnimate _ _).valid
        ((Effect.compositional.readTiming timing false w).valid hw)
    have hline : ((w.readTiming timing false).2.openAnimate
        (w.readTiming timing false).1).scope.timeline = w.scope.timeline := by
      rw [← scope_readTiming timing false w]
      simp only [openAnimate]
      split <;> rfl
    exact (clears_keyframes steps hvalid).of_eq hopen hline

/-- Steps end with a flush, or with a new timeline if they entered any. -/
theorem clears_steps {bodies : List (Body τ)} (hb : ∀ b ∈ bodies, ∀ w, Finishes w (b w))
    (forks : Nat) (hw : w.Valid) : Clears w (w.steps forks bodies) := by
  have hc : Compositional (Finishes : Walk τ → Walk τ → Prop) := Finishes.compositional
  have hrun := hc.foldl hb w
  simp only [steps]
  split
  · exact .inl rfl
  · split
    · exact Finishes.clears_renew (hc.trans hrun (hc.change _ .flush)) hw none
    · exact .inr (hrun.pending_flush hw.timeline)

theorem clears_sequence {bodies : List (Body τ)} (hb : ∀ b ∈ bodies, ∀ w, Finishes w (b w))
    (options : Option (Options τ)) (hw : w.Valid) : Clears w (w.sequence bodies options) := by
  have hc : Compositional (Finishes : Walk τ → Walk τ → Prop) := Finishes.compositional
  simp only [sequence, openSequence]
  cases scoping options with
  | none => exact clears_steps hb _ hw
  | some o =>
    have hinner := hc.trans (hc.openScoped o w) (hc.steps w.scope.forks hb _)
    exact (clears_leave hw rfl rfl hinner.effect).after .sequence

end Walk

/-- **A tree that enters a timeline leaves nothing in wait on the one that it starts on.** -/
theorem Animation.clears (setting : Setting τ) (tree : Animation τ) {w : Walk τ} (hw : w.Valid) :
    Walk.Clears w (tree.body setting w) := by
  have hc : Walk.Compositional (Walk.Finishes : Walk τ → Walk τ → Prop) :=
    Walk.Finishes.compositional
  have he : Walk.Compositional (Walk.Effect : Walk τ → Walk τ → Prop) :=
    Walk.Effect.compositional
  -- only the kinds that pass the walk on as it is need the induction; the others enter a timeline
  -- themselves
  induction tree using Animation.induct generalizing w with
  | trigger | state | transition => exact .inl rfl
  | sequence steps options => exact Walk.clears_sequence hc.of_mem_bodies options hw
  | group steps options =>
    have hrun : Walk.Finishes w
        (Walk.branches options (bodies setting steps) w.currentTime w).1 :=
      hc.branches hc.of_mem_bodies options w.currentTime w
    exact ((hc.trans hrun (hc.gather _ _)).clears_renew hw _).after .group
  | animate timing target => exact Walk.clears_animate timing target hw
  | keyframes steps => exact Walk.clears_keyframes steps hw
  | style step => exact .inl (Walk.length_style step w)
  | reference animation options ih =>
    exact (ih (w := w.update true options) ((he.update true options w).valid hw)).of_eq rfl rfl
  | animateChild options =>
    show Walk.Clears w (w.animateChild setting options)
    have hplace := (hc.placeDelegated setting (w.enter options w.scope.element))
    simp only [Walk.animateChild]
    split
    · split
      · exact (Walk.Finishes.clears_renew (hc.leave rfl rfl rfl hplace) hw _).after .animateChild
      · exact (Walk.clears_leave hw rfl rfl hplace.effect).after .animateChild
    · exact .inl rfl
  | animateRef animation defaults options ih =>
    have hinner := hc.trans (hc.trans (hc.openUse defaults options w) (hc.body setting animation _))
      (hc.after .reference _)
    exact (Walk.Finishes.clears_renew (hc.leave rfl rfl rfl hinner) hw _).after .animateRef
  | query selection animation options ih =>
    -- after a query the scope is on another timeline, which was entered by then
    let elements := setting.select w.scope.element selection
    have hmatches := he.trans (he.openQuery selection elements options w)
      (he.matchesFrom (animation.effect setting) options elements 0 w.currentTime none _)
    refine Walk.Finishes.clears (hc.body setting (.query selection animation options) w) hw ?_
    exact (Walk.closeQuery_line _ _ _).1.trans_ne
      (Nat.ne_of_gt (Nat.lt_of_lt_of_le hw.timeline hmatches.length_le))
  | stagger timing animation ih =>
    show Walk.Clears w (w.stagger _ timing)
    unfold Walk.stagger
    split
    · exact (ih (w := w.report _) ((he.report w _).valid hw)).of_eq rfl rfl
    · have hscope : ∀ outer, (w.openStagger timing outer).scope = w.scope := by
        intro outer
        simp only [Walk.openStagger, Walk.scope_delay, Walk.scope_readTiming]
      refine Walk.Clears.of_eq (ih ((he.openStagger timing _ w).valid hw)) ?_
        (congrArg Scope.timeline (hscope _))
      simp only [Walk.openStagger, Walk.length_delay, Walk.score_readTiming]

end Choreography
