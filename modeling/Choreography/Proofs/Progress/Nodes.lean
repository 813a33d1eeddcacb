/-
Choreography/Proofs/Progress/Nodes.lean

The span of each kind of node.

Every kind leaves the clock of its scope at the end of its span, with one exception: a
sequence with options runs in a scope of its own and the outer clock stays where it is.
What such sequences enter is therefore left out of account (`Covers`).

Main result: `Animation.proceeds`.
-/
import Choreography.Proofs.Progress
import Choreography.Proofs.Tame

namespace Choreography

variable {D : Placement ℚ → Prop} {S : Entry ℚ → Prop} {setting : Setting ℚ}

namespace Walk

variable {w w₁ : Walk ℚ} {f : ℚ}

/-! ### Bookkeeping -/

/-- What happens outside the score takes no time. -/
theorem proceeds_of_score_eq (he : Effect w w₁) (hs : w₁.score = w.score)
    (hl : w₁.scope.timeline = w.scope.timeline) : Proceeds D S w w₁ :=
  .of_skeleton_eq he (by rw [hs]) hl (fun id => by rw [hs]) fun p h => by rwa [hs] at h

/-- Reports take no time. -/
theorem proceeds_report (reports : List Diagnostic) (w : Walk ℚ) :
    Proceeds D S w (w.report reports) :=
  proceeds_of_score_eq (.report w reports) rfl rfl

theorem proceeds_after (kind : Kind) (w : Walk ℚ) : Proceeds D S w (w.after kind) :=
  proceeds_of_score_eq (Effect.compositional.after kind w) rfl rfl

theorem proceeds_withTimings (timings : Option (Timings ℚ)) (w : Walk ℚ) :
    Proceeds D S w (w.withTimings timings) :=
  proceeds_of_score_eq (Effect.compositional.withTimings timings w) rfl rfl

theorem proceeds_update (keep : Bool) (options : Option (Options ℚ)) (w : Walk ℚ) :
    Proceeds D S w (w.update keep options) :=
  proceeds_of_score_eq (Effect.compositional.update keep options w) rfl rfl

theorem proceeds_readTiming (timing : Timing ℚ) (allowNegative : Bool) (w : Walk ℚ) :
    Proceeds D S w (w.readTiming timing allowNegative).2 := by
  cases timing with
  | fixed t => exact proceeds_refl w
  | expression text =>
    simp only [readTiming]
    exact proceeds_report _ w

/-! ### The clock and the styles -/

/-- Styles are written at the time where the clock stands. -/
theorem proceeds_writeAt (entries : List (StyleEntry ℚ)) (easing : Option String) (w : Walk ℚ) :
    Proceeds D S w (w.writeAt w.scope.timeline entries easing) :=
  Proceeds.trans (proceeds_change (c := .write entries easing w.scope.options.params) trivial)
    (proceeds_report _ _)

theorem proceeds_flush (w : Walk ℚ) : Proceeds D S w (w.edit Scene.flush) :=
  proceeds_change (c := .flush) trivial

theorem proceeds_snapshot (w : Walk ℚ) : Proceeds D S w (w.edit Scene.snapshot) :=
  proceeds_change (c := .snapshot) trivial

/-- Moving on by a time that is not negative is a span of its own. -/
theorem proceeds_advance {time : ℚ} (h : 0 ≤ time) (w : Walk ℚ) :
    Proceeds D S w (w.advance time) :=
  proceeds_change (c := .moveTo (w.timeline.duration + time)) (le_add_of_nonneg_right h)

/-- Only positive delays count. -/
theorem proceeds_delay (time : ℚ) (w : Walk ℚ) : Proceeds D S w (w.delay time) := by
  unfold delay
  split
  · exact proceeds_change (c := .delay time) (le_of_lt ‹_›)
  · exact proceeds_refl w

/-- What is merged has been counted where it was played. -/
theorem proceeds_merge (source : TimelineId) (w : Walk ℚ) :
    Proceeds D S w { w with score := w.score.merge w.scope.timeline source } := by
  have horder := order_merge w.scope.timeline source w.score
  -- a merge moves keyframes only, and no clock
  exact .of_skeleton_eq (effect_merge source w) horder rfl (skeleton_merge _ _ _)
    fun p h => by rwa [horder] at h

theorem proceeds_gather (ids : List TimelineId) (w : Walk ℚ) : Proceeds D S w (w.gather ids) := by
  induction ids generalizing w with
  | nil => exact proceeds_refl w
  | cons id ids ih => exact (proceeds_merge id w).trans (ih _)

/-- Gathering takes no time, wherever the span ends. -/
theorem Reaches.gather (h : Reaches D S w w₁ f) (hspared : w.Valid → Spared w w₁)
    (ids : List TimelineId) : Reaches D S w (w₁.gather ids) f where
  effect := h.effect.trans (Effect.compositional.gather ids w₁)
  spans hv hc hclean := by
    have hs := h.spans hv hc ((Effect.compositional.gather ids w₁).precedes.clean hclean)
    have htime : w₁.currentTime = w.currentTime :=
      (hspared hv).currentTime_eq
    -- the span of the merges is empty, and stands at the time where this one began
    have hgather := (proceeds_gather (D := D) (S := S) ids w₁).spans (h.effect.valid hv) hs.clocked
      hclean
    rw [currentTime_gather, htime] at hgather
    exact hs.trans (hgather.widen hs.le) h.effect (Effect.compositional.gather ids w₁) hv le_rfl
      htime.ge

theorem proceeds_style (step : StyleStep ℚ) (w : Walk ℚ) : Proceeds D S w (w.style step) := by
  -- a bare style may have to wait for the next frame
  have hframe : ∀ w : Walk ℚ, Proceeds D S w
      (if w.scope.timings.isNone && w.timeline.hasCurrentStyles then
        w.edit (Scene.onTimeline Timeline.forwardFrame) else w) := by
    intro w
    split
    · exact proceeds_change (c := .nextFrame) trivial
    · exact proceeds_refl w
  have hwrite : ∀ (easing : Option String) (w : Walk ℚ), Proceeds D S w
      (if step.entries.isEmpty then w.edit (Scene.setEmptyStep easing)
        else w.writeAt w.scope.timeline step.entries easing) := by
    intro easing w
    split
    · exact proceeds_change (c := .emptyStep easing) trivial
    · exact proceeds_writeAt step.entries easing w
  exact ((hframe w).trans (hwrite _ _)).trans (proceeds_after .style _)

/-! ### Keyframes -/

/-- A keyframe sets the clock of its timeline. -/
theorem clock_keyframe (hv : w.Valid) (duration : ℚ) (step : StyleStep ℚ) (offset : ℚ) :
    (w.keyframe w.scope.timeline duration step offset).timeline.start = w.timeline.start ∧
      (w.keyframe w.scope.timeline duration step offset).timeline.duration = offset * duration := by
  have hmove : (w.edit (Scene.forwardTo (offset * duration))).timeline =
      ((w.score.scene w.scope.timeline).forwardTo (offset * duration)).timeline :=
    Score.timeline_edit_self _ hv.timeline
  -- what comes after the move is a matter of styles
  have hrest : (w.keyframe w.scope.timeline duration step offset).timeline.skeleton =
      (w.edit (Scene.forwardTo (offset * duration))).timeline.skeleton := by
    refine Score.timeline_edit_induct
      (P := fun t => t.skeleton = (w.edit (Scene.forwardTo (offset * duration))).timeline.skeleton)
      (fun he => (Scene.skeleton_flush _).trans he) ?_
    exact Score.timeline_edit_induct
      (P := fun t => t.skeleton = (w.edit (Scene.forwardTo (offset * duration))).timeline.skeleton)
      (f := fun s => (s.setStyles step.entries step.easing w.scope.options.params).1)
      (fun he => (Scene.skeleton_setStyles _ _ _ _).trans he) rfl
  have hstart := congrArg Skeleton.start hrest
  have hduration := congrArg Skeleton.duration hrest
  rw [hmove] at hstart hduration
  exact ⟨hstart.trans (Scene.start_forwardTo _ _), hduration.trans (Scene.duration_forwardTo _ _)⟩

/-- Keyframes in ascending order take the clock to the last one of them. -/
theorem proceeds_playKeyframes {duration limit : ℚ} {steps : List (StyleStep ℚ × ℚ)}
    (hascending : (steps.map fun step => step.2 * duration).Pairwise (· ≤ ·))
    (hlimit : ∀ step ∈ steps, step.2 * duration ≤ limit) {w : Walk ℚ} (hv : w.Valid)
    (hfirst : ∀ step ∈ steps, w.timeline.duration ≤ step.2 * duration)
    (hnow : w.timeline.duration ≤ limit) :
    Proceeds D S w (w.playKeyframes duration steps) ∧
      (w.playKeyframes duration steps).currentTime ≤ w.timeline.start + limit := by
  -- on the keyframes, each of which is a move, a write and a flush; the clock is where it stands
  induction steps generalizing w with
  | nil => exact ⟨proceeds_refl w, (add_le_add_iff_left _).2 hnow⟩
  | cons step steps ih =>
    rw [List.map_cons, List.pairwise_cons] at hascending
    rw [List.forall_mem_cons] at hlimit hfirst
    have hstep : Proceeds D S w (w.keyframe w.scope.timeline duration step.1 step.2) :=
      (Proceeds.trans (proceeds_change (c := .moveTo (step.2 * duration)) hfirst.1)
        (proceeds_writeAt step.1.entries step.1.easing _)).trans (proceeds_flush _)
    -- the next keyframe finds the clock at the place of this one
    obtain ⟨hstart, hduration⟩ := clock_keyframe hv duration step.1 step.2
    obtain ⟨hproceeds, hend⟩ := ih hascending.2 hlimit.2 (hstep.effect.valid hv)
      (fun later hlater => by
        rw [hduration]
        exact hascending.1 _ (List.mem_map.2 ⟨later, hlater, rfl⟩))
      (by rw [hduration]; exact hlimit.1)
    rw [hstart] at hend
    exact ⟨hstep.trans hproceeds, hend⟩

/-- The timeline for keyframes starts where the clock stands. -/
theorem clock_openKeyframes (timings : Timings ℚ) (w : Walk ℚ) :
    (w.openKeyframes timings).timeline.start = w.currentTime ∧
      (w.openKeyframes timings).timeline.duration = 0 := by
  -- the easing of the new timeline has no part in its clock
  have hopen : (w.openKeyframes timings).timeline.skeleton =
      (w.enter none w.scope.element).timeline.skeleton :=
    Score.timeline_edit_induct
      (P := fun t => t.skeleton = (w.enter none w.scope.element).timeline.skeleton)
      (fun he => he) rfl
  obtain ⟨lineage, own, hnew⟩ := enter_timeline_eq w none w.scope.element
  rw [hnew] at hopen
  exact ⟨congrArg Skeleton.start hopen, congrArg Skeleton.duration hopen⟩

/-- The shares of valid keyframes ascend within the duration. -/
theorem shares_of_validateKeyframes {steps : List (StyleStep ℚ)}
    (hvalid : validateKeyframes steps = .ok ()) {duration : ℚ} (hd : 0 ≤ duration) :
    ((steps.zip (resolvedOffsets steps)).map fun step => step.2 * duration).Pairwise (· ≤ ·) ∧
      ∀ step ∈ steps.zip (resolvedOffsets steps),
        0 ≤ step.2 * duration ∧ step.2 * duration ≤ duration := by
  obtain ⟨hrange, hascending⟩ := offsets_of_validateKeyframes hvalid
  constructor
  · -- a duration that is not negative keeps the offsets in order
    have hscaled : ((resolvedOffsets steps).map (· * duration)).Pairwise (· ≤ ·) :=
      hascending.map _ fun a b hab => mul_le_mul_of_nonneg_right hab hd
    have hoffsets : (steps.zip (resolvedOffsets steps)).map Prod.snd = resolvedOffsets steps :=
      List.map_snd_zip (length_resolvedOffsets steps).le
    rw [← hoffsets, List.map_map] at hscaled
    exact hscaled
  · intro step hstep
    obtain ⟨hnonneg, hle⟩ := hrange _ (List.of_mem_zip hstep).2
    exact ⟨mul_nonneg hnonneg hd, mul_le_of_le_one_left hd hle⟩

/-- It is over when the time of the keyframes is. -/
theorem reaches_playKeyframes {steps : List (StyleStep ℚ)} {timings : Timings ℚ}
    (hd : 0 ≤ timings.duration) (hvalid : validateKeyframes steps = .ok ()) :
    Reaches D S (w.enter none w.scope.element)
      ((w.openKeyframes timings).playKeyframes timings.duration
        (steps.zip (resolvedOffsets steps))) (w.currentTime + timings.duration) := by
  obtain ⟨hsorted, hshares⟩ := shares_of_validateKeyframes hvalid hd
  have hease : Proceeds D S (w.enter none w.scope.element) (w.openKeyframes timings) :=
    proceeds_change (c := .ease timings.easing) trivial
  obtain ⟨hstart, hduration⟩ := clock_openKeyframes timings w
  refine hease.trans_reaches ⟨Effect.compositional.playKeyframes _ _ _, ?_⟩
  intro hv hc hclean
  -- the first keyframe finds the clock at the start of the new timeline
  obtain ⟨hproceeds, hend⟩ := proceeds_playKeyframes (D := D) (S := S) hsorted
    (fun step hstep => (hshares step hstep).2) hv
    (fun step hstep => hduration.trans_le (hshares step hstep).1) (hduration.trans_le hd)
  rw [hstart] at hend
  exact (hproceeds.spans hv hc hclean).widen hend

/-- Keyframes take the duration of the step in which they stand. -/
theorem proceeds_keyframes {steps : List (StyleStep ℚ)} {timings : Timings ℚ}
    (h : w.scope.timings = some timings) (hd : 0 ≤ timings.duration)
    (hvalid : validateKeyframes steps = .ok ()) : Proceeds D S w (w.keyframes steps) := by
  rw [keyframes_eq h]
  have hinner := reaches_playKeyframes (D := D) (S := S) (w := w) hd hvalid
  have hspared : w.Valid → Spared w (leave w.scope ((w.openKeyframes timings).playKeyframes
      timings.duration (steps.zip (resolvedOffsets steps)))) :=
    fun hv => spared_leave hv rfl rfl hinner.effect
  -- what was played is merged, and the outer scope goes on at the time of the end
  have hgather := (Reaches.leave rfl rfl rfl rfl hinner).gather hspared
    [((w.openKeyframes timings).playKeyframes timings.duration
      (steps.zip (resolvedOffsets steps))).scope.timeline]
  exact (hgather.renew fun _ => rfl).trans (proceeds_after .keyframes _)

/-! ### Animated steps -/

theorem proceeds_openAnimate (timings : Timings ℚ) (w : Walk ℚ) :
    Proceeds D S w (w.openAnimate timings) := by
  refine Proceeds.trans (proceeds_withTimings (some timings) w) ?_
  simp only [openAnimate]
  split
  · exact (proceeds_advance (le_of_lt ‹_›) _).trans (proceeds_snapshot _)
  · exact proceeds_refl _

theorem timings_openAnimate (timings : Timings ℚ) (w : Walk ℚ) :
    (w.openAnimate timings).scope.timings = some timings := by
  simp only [openAnimate]
  split <;> rfl

/-- The timings of a valid step are not negative, if nothing is reported about them. -/
theorem nonneg_readTiming {timing : Timing ℚ} {target : Target ℚ}
    (h : validateAnimate timing target = .ok ()) {w : Walk ℚ}
    (hclean : (w.readTiming timing false).2.diagnostics = []) :
    0 ≤ (w.readTiming timing false).1.duration := by
  cases timing with
  | fixed t => exact (nonneg_of_validateTimings (validateTimings_of_validateAnimate h)).1
  | expression text =>
    simp only [readTiming, report, List.append_eq_nil_iff] at hclean ⊢
    exact (nonneg_of_read hclean.2.2).1

/-- A target takes the duration of the timing. -/
theorem proceeds_moveTo {timing : Timing ℚ} {target : Target ℚ}
    (h : validateAnimate timing target = .ok ()) {timings : Timings ℚ} {w : Walk ℚ}
    (hd : 0 ≤ timings.duration) (ht : w.scope.timings = some timings) :
    Proceeds D S w (w.moveTo timings.duration target) := by
  cases target with
  | keyframes steps => exact proceeds_keyframes ht hd (validateKeyframes_of_validateAnimate h)
  | style step =>
    exact ((proceeds_advance hd w).trans (proceeds_style step _)).trans (proceeds_flush _)

/-- An animated step takes its delay and its duration. -/
theorem proceeds_animate {timing : Timing ℚ} {target : Target ℚ}
    (h : validateAnimate timing target = .ok ()) (w : Walk ℚ) :
    Proceeds D S w (w.animate timing target) where
  effect := Effect.compositional.animate timing target w
  spans hv hc hclean := by
    -- the timings are not negative: they are valid, or nothing was reported about them
    have hrest : Effect (w.readTiming timing false).2 (w.animate timing target) :=
      (((Effect.compositional.openAnimate _ _).trans (Effect.compositional.moveTo _ _ _)).trans
        (Effect.compositional.withTimings none _)).trans (Effect.compositional.after .animate _)
    have hnonneg := nonneg_readTiming h (hrest.precedes.clean hclean)
    have hproceeds : Proceeds D S w (w.animate timing target) :=
      (((Proceeds.trans (proceeds_readTiming timing false w) (proceeds_openAnimate _ _)).trans
        (proceeds_moveTo h hnonneg (timings_openAnimate _ _))).trans
          (proceeds_withTimings none _)).trans (proceeds_after .animate _)
    exact hproceeds.spans hv hc hclean

/-! ### Sequences and groups -/

/-- One step after another: a step may be assumed to be reached from the ones before it. -/
theorem proceeds_follow {steps : List (Animation ℚ)}
    (h : ∀ pre step post, steps = pre ++ step :: post →
      Proceeds D S (w.follow (bodies setting pre))
        (step.body setting (w.follow (bodies setting pre)))) :
    Proceeds D S w (w.follow (bodies setting steps)) := by
  -- from the end, for the walk that a step meets depends on all the steps before it
  induction steps using List.reverseRecOn with
  | nil => exact proceeds_refl w
  | append_singleton steps step ih =>
    have hsteps : Proceeds D S w (w.follow (bodies setting steps)) :=
      ih fun pre s post he => h pre s (post ++ [step]) (by rw [he]; simp)
    rw [bodies_append, follow_append]
    exact hsteps.trans (h steps step [] rfl)

/-- The flush and the new timeline at the end of steps take no time. -/
theorem proceeds_steps (forks : Nat) {steps : List (Animation ℚ)}
    (h : ∀ pre step post, steps = pre ++ step :: post →
      Proceeds D S (w.follow (bodies setting pre))
        (step.body setting (w.follow (bodies setting pre)))) :
    Proceeds D S w (w.steps forks (bodies setting steps)) := by
  simp only [Walk.steps]
  split
  · exact proceeds_refl w
  · have hrun := (proceeds_follow h).trans (proceeds_flush _)
    split
    · exact hrun.trans (proceeds_renew _)
    · exact hrun

theorem proceeds_openScoped (o : Options ℚ) (w : Walk ℚ) :
    Proceeds D S (w.enter (some o) w.scope.element)
      (((w.enter (some o) w.scope.element).renew none).delay (delayOf (some o))) :=
  (proceeds_renew _).trans (proceeds_delay _ _)

/-- A sequence takes the time of its steps if it has no options, and none if it has. -/
theorem proceeds_sequence {steps : List (Animation ℚ)} {options : Option (Options ℚ)}
    (h : ∀ pre step post, steps = pre ++ step :: post →
      Proceeds D S ((w.openSequence options).follow (bodies setting pre))
        (step.body setting ((w.openSequence options).follow (bodies setting pre))))
    (hS : (scoping options).isSome →
      ∀ e ∈ w.registered (w.sequence (bodies setting steps) options), S e) :
    Proceeds D S w (w.sequence (bodies setting steps) options) := by
  have hsteps := proceeds_steps w.scope.forks h
  simp only [sequence] at hS ⊢
  cases ho : scoping options with
  | none =>
    have hopen : w.openSequence options = w := by rw [openSequence, ho]
    rw [hopen] at hsteps ⊢
    exact hsteps.trans (proceeds_after .sequence _)
  | some o =>
    have hopen : w.openSequence options =
        ((w.enter (some o) w.scope.element).renew none).delay (delayOf (some o)) := by
      rw [openSequence, ho]
    rw [ho] at hS
    have hinner := (proceeds_openScoped (D := D) (S := S) o w).trans_reaches (hopen ▸ hsteps)
    -- the outer clock stays, and what was entered is left out of account
    have hcover := (Reaches.leave rfl rfl rfl rfl hinner).cover
      (fun hv => spared_leave hv rfl rfl hinner.effect)
      (fun e he => hS rfl e (by rw [hopen]; exact he))
    rw [hopen]
    exact Proceeds.trans hcover (proceeds_after .sequence _)

/-- Branches begin at one time, and are over when the longest is. -/
theorem reaches_branches {steps : List (Animation ℚ)} {options : Option (Options ℚ)}
    {furthest : ℚ} (hf : w.currentTime ≤ furthest)
    (h : ∀ pre step post, steps = pre ++ step :: post →
      let w' := (branches options (bodies setting pre) furthest w).1
      Proceeds D S (w'.openBranch options) (step.body setting (w'.openBranch options))) :
    Reaches D S w (branches options (bodies setting steps) furthest w).1
      (branches options (bodies setting steps) furthest w).2.1 := by
  induction steps using List.reverseRecOn with
  | nil => exact (proceeds_refl w).widen hf
  | append_singleton steps step ih =>
    have hsteps := ih fun pre s post he => h pre s (post ++ [step]) (by rw [he]; simp)
    have hlast := h steps step [] rfl
    rw [bodies_append, branches_append]
    -- a branch leaves the clock outside of it alone
    have hspared : w.Valid → (branches options (bodies setting steps) furthest w).1.currentTime =
        w.currentTime := fun hv => (spared_branches
      effect_of_mem_bodies options furthest hv).1.currentTime_eq
    generalize branches options (bodies setting steps) furthest w = done at *
    obtain ⟨u, reached, ids⟩ := done
    have hinner := Proceeds.trans (proceeds_delay (D := D) (S := S) (delayOf options)
      (u.enter options u.scope.element)) hlast
    exact hsteps.beside ((Reaches.leave rfl rfl rfl rfl hinner).widen (le_later_right reached _))
      (le_later_left reached _) hspared

/-- A group takes the time of its longest branch. -/
theorem proceeds_group {steps : List (Animation ℚ)} {options : Option (Options ℚ)}
    (h : ∀ pre step post, steps = pre ++ step :: post →
      Proceeds D S (w.atBranch options (bodies setting pre))
        (step.body setting (w.atBranch options (bodies setting pre)))) :
    Proceeds D S w (w.group (bodies setting steps) options) := by
  have hbranches := reaches_branches (le_refl w.currentTime) h
  have hgather := hbranches.gather
    (fun hv => (spared_branches effect_of_mem_bodies options _ hv).1)
    (branches options (bodies setting steps) w.currentTime w).2.2
  -- it goes on in a new timeline at the end of that branch
  exact (hgather.renew fun hv =>
    (spared_branches effect_of_mem_bodies options _ hv).1.line).trans (proceeds_after .group _)

/-! ### References and delegation -/

theorem proceeds_referenceDelay (options : Option (Options ℚ)) (w : Walk ℚ) :
    Proceeds D S w (w.referenceDelay options) := by
  unfold referenceDelay
  split
  · exact proceeds_refl w
  · split
    · exact proceeds_refl w
    · exact Proceeds.trans (proceeds_report _ w) (proceeds_delay _ _)

/-- The use of a reference waits for its own delay and for that of the defaults. -/
theorem proceeds_openUse (defaults options : Option (Options ℚ)) (w : Walk ℚ) :
    Proceeds D S (w.enter options w.scope.element)
      ((w.openUse defaults options).update true defaults) :=
  (((proceeds_renew _).trans (proceeds_referenceDelay options _)).trans
    (proceeds_referenceDelay defaults _)).trans (proceeds_update true defaults _)

/-- The use of a reference takes the time of what is referred to, and of the delays. -/
theorem proceeds_animateRef {body : Body ℚ} {defaults options : Option (Options ℚ)}
    (h : Proceeds D S ((w.openUse defaults options).update true defaults)
      (body ((w.openUse defaults options).update true defaults))) :
    Proceeds D S w (w.animateRef body defaults options) := by
  have hinner := ((proceeds_openUse defaults options w).trans h).trans (proceeds_after .reference _)
  exact ((Reaches.leave rfl rfl rfl rfl hinner).renew fun _ => rfl).trans
    (proceeds_after .animateRef _)

/-- A placement is over at the end that is told for it. -/
theorem reaches_place {i : Instruction ℚ} (hdelay : 0 ≤ w.scope.options.delay.getD 0)
    (hi : 0 ≤ i.delay)
    (hD : ∀ delay, D ⟨i, w.scope.options.duration.getD i.duration, delay, i.stretchStart⟩)
    (hf : w.currentTime ≤ f) (hend : (w.place i).1 ≤ f) : Reaches D S w (w.place i).2 f where
  effect := .perform (.place _) fun _ hid => by cases hid
  spans hv hc hclean := by
    have hregistered : w.registered (w.place i).2 = [.placed ⟨i,
        w.scope.options.duration.getD i.duration,
        w.currentTime + w.scope.options.delay.getD 0 + i.delay, i.stretchStart⟩] := by
      show (w.score.order ++ [_]).drop w.score.order.length = _
      simp
    refine ⟨hc.place (hD _), hf, le_rfl, hf, ?_, ?_⟩
    · rw [hregistered]
      intro e he
      rw [List.mem_singleton] at he
      subst he
      show w.currentTime ≤ w.currentTime + w.scope.options.delay.getD 0 + i.delay
      linarith
    · rw [hregistered]
      intro e he
      rw [List.mem_singleton] at he
      subst he
      right
      refine le_trans (le_of_eq ?_) hend
      exact add_comm _ _

theorem reaches_placeAll {instructions : List (Instruction ℚ)} {furthest : ℚ} {w : Walk ℚ}
    (hdelay : 0 ≤ w.scope.options.delay.getD 0) (hi : ∀ i ∈ instructions, 0 ≤ i.delay)
    (hD : ∀ i ∈ instructions, ∀ delay stretch,
      D ⟨i, w.scope.options.duration.getD i.duration, delay, stretch⟩)
    (hf : w.currentTime ≤ furthest) :
    Reaches D S w (placeAll instructions furthest w).2 (placeAll instructions furthest w).1 ∧
      furthest ≤ (placeAll instructions furthest w).1 := by
  induction instructions generalizing furthest w with
  | nil => exact ⟨(proceeds_refl w).widen hf, le_rfl⟩
  | cons i is ih =>
    rw [List.forall_mem_cons] at hi hD
    have hlater := le_later_left furthest (w.place i).1
    -- a placement does not move the clock
    have hbehind : (w.place i).2.currentTime ≤ Quantity.later furthest (w.place i).1 :=
      hf.trans hlater
    obtain ⟨hrest, hle⟩ := ih (w := (w.place i).2) hdelay hi.2 hD.2 hbehind
    have hplace : Reaches D S w (w.place i).2 (Quantity.later furthest (w.place i).1) :=
      reaches_place hdelay hi.1 (fun delay => hD.1 delay _) (hf.trans hlater)
        (le_later_right furthest _)
    exact ⟨hplace.beside hrest hle fun _ => rfl, hlater.trans hle⟩

theorem options_enter (options : Option (Options ℚ)) (element : ElementId) (w : Walk ℚ) :
    (w.enter options element).scope.options.duration =
        (options.getD .none).duration.map Scalar.milliseconds ∧
      (w.enter options element).scope.options.delay.getD 0 =
        delayOf (some (options.getD .none)) := by
  cases options with
  | none => exact ⟨rfl, rfl⟩
  | some o =>
    refine ⟨?_, ?_⟩
    · show (o.duration.map Scalar.milliseconds).or none = _
      rw [Option.or_none]
      rfl
    · show ((o.delay.map Scalar.milliseconds).or none).getD 0 = _
      rw [Option.or_none]
      cases h : o.delay <;> simp [delayOf, h]

/-- Delegated animations take the time until the last of them is over. -/
theorem proceeds_animateChild {options : Option (Options ℚ)}
    (h : (Animation.animateChild options).Tame setting D) (w : Walk ℚ) :
    Proceeds D S w (w.animateChild setting options) := by
  have hoptions : options.getD .none ∈ (Animation.animateChild options).childOptions :=
    List.mem_singleton_self _
  obtain ⟨hduration, hdelay⟩ := options_enter options w.scope.element w
  -- a duration of zero in the options skips them all
  have hplaced : Reaches D S (w.enter options w.scope.element)
      ((w.enter options w.scope.element).placeDelegated setting).2
      ((w.enter options w.scope.element).placeDelegated setting).1 := by
    unfold placeDelegated
    split
    · exact proceeds_refl _
    · refine (reaches_placeAll ?_ (fun i hi => h.delegated _ i hi) ?_ le_rfl).1
      · rw [hdelay]
        exact h.delays _ hoptions
      · intro i hi delay stretch
        rw [hduration]
        exact h.placed _ hoptions _ i hi delay stretch
  have hleave : Reaches D S w _ _ := Reaches.leave rfl rfl rfl rfl hplaced
  have hproceeds : Proceeds D S w
      (if setting.delegated.contains w.scope.element then
        let (finish, inner) := (w.enter options w.scope.element).placeDelegated setting
        let w := Walk.leave w.scope inner
        if w.currentTime != finish then w.renew (some finish) else w
      else w) := by
    split
    · simp only
      split
      · exact hleave.renew fun _ => rfl
      · -- the clock stands at the end already
        rename_i hnow
        -- so that is the end for which the walk would have gone on
        refine hleave.widen (le_of_eq ?_)
        simpa using Eq.symm (by simpa using hnow)
    · exact proceeds_refl w
  exact hproceeds.trans (proceeds_after .animateChild _)

/-! ### Queries and staggers -/

theorem proceeds_openMatch (options : Option (Options ℚ)) (element : ElementId) (index : Nat)
    (w : Walk ℚ) : Proceeds D S ({ w with scope := { w.scope with index := index } }.enter options
      element) (w.openMatch options element index) :=
  proceeds_delay _ _

/-- The matches begin at one time, and are over when the longest is. -/
theorem reaches_matchesFrom {body : Body ℚ} (hb : ∀ w, Effect w (body w))
    {options : Option (Options ℚ)} {elements : List ElementId} {furthest : ℚ}
    {self : Option TimelineId} (hf : w.currentTime ≤ furthest)
    (h : ∀ pre element post, elements = pre ++ element :: post →
      let w' := (matchesFrom options body pre 0 furthest self w).1
      Proceeds D S (w'.openMatch options element pre.length)
        (body (w'.openMatch options element pre.length))) :
    Reaches D S w (matchesFrom options body elements 0 furthest self w).1
      (matchesFrom options body elements 0 furthest self w).2.1 := by
  -- from the end, as for branches: the index of a match counts the ones before it
  induction elements using List.reverseRecOn with
  | nil => exact (proceeds_refl w).widen hf
  | append_singleton elements element ih =>
    have hmatches := ih fun pre e post he => h pre e (post ++ [element]) (by rw [he]; simp)
    have hlast := h elements element [] rfl
    rw [matchesFrom_append, Nat.zero_add]
    have hspared : w.Valid → (matchesFrom options body elements 0 furthest self w).1.currentTime =
        w.currentTime := fun hv => (spared_matchesFrom hb
      options elements 0 furthest self hv).currentTime_eq
    generalize matchesFrom options body elements 0 furthest self w = done at *
    obtain ⟨u, reached, id?⟩ := done
    have hinner := ((proceeds_openMatch options element elements.length u).trans hlast).trans
      (proceeds_flush _)
    -- the index of the match is written into the scope before it is entered
    have hleave : Reaches D S u (leave u.scope _) _ :=
      Reaches.leave (u := { u with scope := { u.scope with index := elements.length } }) rfl rfl
        rfl rfl hinner
    exact hmatches.beside (hleave.widen (le_later_right reached _)) (le_later_left reached _) hspared

theorem proceeds_openQuery (q : Selection) (elements : List ElementId)
    (options : Option (Options ℚ)) (w : Walk ℚ) :
    Proceeds D S w (w.openQuery q elements options) := by
  have hhold : Proceeds D S w (w.holdStyles (delayOf options)) := by
    unfold holdStyles
    split
    · exact (proceeds_snapshot w).trans
        (proceeds_of_score_eq (.rescope _ _ rfl rfl) rfl rfl)
    · exact proceeds_refl w
  refine hhold.trans ?_
  simp only [openQuery]
  split
  · exact Proceeds.trans (proceeds_report _ _)
      (proceeds_of_score_eq (.rescope _ _ rfl rfl) rfl rfl)
  · exact proceeds_of_score_eq (.rescope _ _ rfl rfl) rfl rfl

/-- A query takes the time of its longest match. -/
theorem proceeds_query {animation : Animation ℚ} {q : Selection} {options : Option (Options ℚ)}
    (h : ∀ pre element post, setting.select w.scope.element q = pre ++ element :: post →
      let w' := w.beforeMatch setting (animation.body setting) q options pre
      Proceeds D S (w'.openMatch options element pre.length)
        (animation.body setting (w'.openMatch options element pre.length))) :
    Proceeds D S w (w.query setting (animation.body setting) q options) := by
  have hb := animation.effect setting
  let opened := w.openQuery q (setting.select w.scope.element q) options
  let done := matchesFrom options (animation.body setting) (setting.select w.scope.element q) 0
    w.currentTime none opened
  have hopened : Proceeds D S w opened := proceeds_openQuery _ _ _ _
  have hmatches : Reaches D S opened done.1 done.2.1 :=
    reaches_matchesFrom hb (currentTime_openQuery q _ options w).le h
  -- the scope is put back before the query goes on
  have hback : Reaches D S opened { done.1 with scope := { done.1.scope with index := 0, total := 0 } }
      done.2.1 := by
    refine ⟨hmatches.effect.trans (.rescope _ _ rfl rfl), fun hv hc hclean => ?_⟩
    have hs := hmatches.spans hv hc hclean
    exact ⟨hs.clocked, hs.le, hs.line_begins, hs.line_ends, hs.begins, hs.ends⟩
  have hrenew := hback.renew fun hv => (spared_matchesFrom hb options _ 0 _ none hv).line
  have hclose : Proceeds D S opened (done.1.closeQuery done.2.1 done.2.2) := by
    unfold closeQuery
    -- only what the element itself wrote is merged
    cases done.2.2 with
    | none => exact hrenew
    | some id => exact (hrenew.trans (proceeds_merge id _)).trans (proceeds_snapshot _)
  exact (hopened.trans hclose).trans (proceeds_after .query _)

/-- A stagger waits for its share of the time before its animation begins. -/
theorem proceeds_atStagger (timing : Timing ℚ) (w : Walk ℚ) :
    Proceeds D S w (w.atStagger timing) := by
  unfold atStagger
  split
  · exact proceeds_report _ w
  · exact Proceeds.trans (proceeds_readTiming timing true w) (proceeds_delay _ _)

/-- A stagger takes the time of its animation after that. -/
theorem proceeds_stagger {body : Body ℚ} {timing : Timing ℚ}
    (h : Proceeds D S (w.atStagger timing) (body (w.atStagger timing))) :
    Proceeds D S w (w.stagger body timing) := by
  have hbody := ((proceeds_atStagger timing w).trans h).trans (proceeds_after .stagger _)
  unfold atStagger at hbody
  unfold stagger
  -- the time is recorded for the scope around, if there is one
  cases ho : w.scope.outer with
  | none =>
    rw [ho] at hbody
    exact hbody
  | some outer =>
    rw [ho] at hbody
    exact hbody.trans (proceeds_of_score_eq (.rescope _ _ rfl rfl) rfl rfl)

end Walk

/-! ### Trees -/

/-- Whether a predicate holds of all entries of sequences with options that a tree visits. -/
def Covers (setting : Setting ℚ) (S : Entry ℚ → Prop) (tree : Animation ℚ) (w : Walk ℚ) : Prop :=
  ∀ steps options v, Visit setting tree w (.sequence steps options) v →
    (Walk.scoping options).isSome →
      ∀ e ∈ v.registered ((Animation.sequence steps options).body setting v), S e

theorem Covers.inner {tree inner : Animation ℚ} {w u : Walk ℚ} (h : Covers setting S tree w)
    (hvisit : ∀ node v, Visit setting inner u node v → Visit setting tree w node v) :
    Covers setting S inner u :=
  fun steps options v hv => h steps options v (hvisit _ v hv)

/-- A tree leaves the clock at the end of its span, sequences with options left out of
account. -/
theorem Animation.proceeds {tree : Animation ℚ} {w : Walk ℚ} (h : tree.Tame setting D)
    (hS : Covers setting S tree w) : Walk.Proceeds D S w (tree.body setting w) := by
  induction tree using Animation.induct generalizing w with
  | trigger | state | transition => exact Walk.proceeds_refl w
  | sequence steps options ih =>
    refine Walk.proceeds_sequence ?_ fun ho => hS steps options w (.here _ w) ho
    rintro pre step post rfl
    exact ih step (by simp) (h.steps rfl rfl (by simp)) (hS.inner fun _ _ => .step)
  | group steps options ih =>
    refine Walk.proceeds_group ?_
    rintro pre step post rfl
    exact ih step (by simp) (h.steps rfl rfl (by simp)) (hS.inner fun _ _ => .branch)
  | animate timing target => exact Walk.proceeds_animate h.valid w
  | keyframes steps =>
    -- keyframes stand in an animated step only
    cases h.valid
  | style step => exact Walk.proceeds_style step w
  | reference animation options ih =>
    exact ((Walk.proceeds_update true options w).trans
      (ih (h.inner h.valid fun _ ho => ho) (hS.inner fun _ _ => .reference))).trans
        (Walk.proceeds_after .reference _)
  | animateChild options => exact Walk.proceeds_animateChild h w
  | animateRef animation defaults options ih =>
    exact Walk.proceeds_animateRef
      (ih (h.inner h.valid fun _ ho => ho) (hS.inner fun _ _ => .use))
  | query selection animation options ih =>
    have hvalid := Animation.validate_of_validate_query h.valid
    refine Walk.proceeds_query ?_
    intro pre element post hselect
    exact ih (h.inner hvalid fun _ ho => ho) (hS.inner fun _ _ => .match hselect)
  | stagger timing animation ih =>
    exact Walk.proceeds_stagger
      (ih (h.inner h.valid fun _ ho => ho) (hS.inner fun _ _ => .stagger))

end Choreography
