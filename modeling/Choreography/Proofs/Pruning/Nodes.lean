/-
Choreography/Proofs/Pruning/Nodes.lean

Nodes of two runs in step.

Nodes of the same kind keep walks in step if what they contain does.  Lists of steps may differ
in steps that do nothing (`Thins`).  In a sequence such a step leaves the walk as it is.  In a
group it is given a scope and a timeline of its own, which is left over; it ends when the scope
has waited for its delay, and every other branch ends then or later, so that the longest
branches of the two groups are equally long (`Paired.branches`).

A sequence with a scope of its own compares the number of scopes that were entered from it with
that of the outer scope.  The two runs may not agree on that, but the timeline in which one of
them goes on is left at once (`InStep.leave_renewed`).

Main result: `Animation.inStep`.
-/
import Choreography.Proofs.Progress.Nodes
import Choreography.Proofs.Pruning
import Choreography.Proofs.Pruning.Walk

namespace Choreography

namespace Walk

variable {ρ : Pairing} {w u w₁ u₁ : Walk ℚ}

/-! ### Styles and keyframes -/

theorem inStep_readTiming (timing : Timing ℚ) (allowNegative : Bool) (w u : Walk ℚ) :
    InStep w u (w.readTiming timing allowNegative).2 (u.readTiming timing allowNegative).2 := by
  refine .assuming (Effect.compositional.readTiming timing allowNegative w)
    (Effect.compositional.readTiming timing allowNegative u) fun h _ => ?_
  cases timing with
  | fixed t => exact .refl w u
  | expression text =>
    simp only [readTiming, h.scope.options_eq]
    exact inStep_report _ w u

theorem Paired.readTiming_eq (h : w.Paired ρ u) (timing : Timing ℚ) (allowNegative : Bool) :
    (u.readTiming timing allowNegative).1 = (w.readTiming timing allowNegative).1 :=
  readTiming_congr (congrArg Overrides.params h.scope.options_eq) timing allowNegative

/-- Walks that are in step stay so over a style. -/
theorem inStep_style (step : StyleStep ℚ) (w u : Walk ℚ) :
    InStep w u (w.style step) (u.style step) := by
  refine .assuming (Effect.compositional.style step w) (Effect.compositional.style step u)
    fun h _ => ?_
  -- a bare style may have to wait for the next frame
  have hframe : InStep w u
      (if w.scope.timings.isNone && w.timeline.hasCurrentStyles then
        w.edit (Scene.onTimeline Timeline.forwardFrame) else w)
      (if u.scope.timings.isNone && u.timeline.hasCurrentStyles then
        u.edit (Scene.onTimeline Timeline.forwardFrame) else u) := by
    rw [h.scope.timings_eq, h.timeline_eq]
    split
    · refine inStep_change (c := .nextFrame) ?_
      show _ ≤ ({ w.timeline with duration := w.timeline.duration + oneFrame } :
        Timeline ℚ).loadKeyframe.currentTime
      rw [Timeline.currentTime, Timeline.start_loadKeyframe, Timeline.duration_loadKeyframe]
      exact (add_le_add_iff_left _).2 (le_add_of_nonneg_right (zero_le_one : (0 : ℚ) ≤ 1))
    · exact .refl w u
  -- which of the two is done depends on the step alone
  have hwrite : ∀ (easing : Option String) (w u : Walk ℚ), InStep w u
      (if step.entries.isEmpty then w.edit (Scene.setEmptyStep easing)
        else w.writeAt w.scope.timeline step.entries easing)
      (if step.entries.isEmpty then u.edit (Scene.setEmptyStep easing)
        else u.writeAt u.scope.timeline step.entries easing) := by
    intro easing w u
    split
    · exact inStep_change_of_skeleton_eq (c := .emptyStep easing)
        (fun s => s.skeleton_setEmptyStep easing) w u
    · exact inStep_writeAt step.entries easing w u
  refine (hframe.trans (.assuming (hwrite _ _ u).effect (hwrite _ w _).effect'
    fun h₁ _ => ?_)).trans (inStep_after .style _ _)
  -- the step as an easing reads it off the timings, which are the same still
  rw [h₁.scope.timings_eq]
  exact hwrite _ _ _

theorem Paired.openKeyframes (h : w.Paired ρ u) (timings : Timings ℚ) :
    (w.openKeyframes timings).Paired (ρ.join w.score.timelines.length u.score.timelines.length)
      (u.openKeyframes timings) := by
  have hopen := (h.enter none w.scope.element).change (.ease timings.easing)
  unfold Walk.openKeyframes
  rw [h.scope.element_eq]
  exact hopen

theorem Paired.playKeyframes (h : w.Paired ρ u) (duration : ℚ)
    (steps : List (StyleStep ℚ × ℚ)) :
    (w.playKeyframes duration steps).Paired ρ (u.playKeyframes duration steps) := by
  induction steps generalizing w u with
  | nil => exact h
  | cons step steps ih =>
    have hmove := h.change (.moveTo (step.2 * duration))
    have hwrite := hmove.writeAt step.1.entries step.1.easing
    exact ih (hwrite.change .flush)

/-- Keyframes keep walks in step, as long as their step does not go back in time. -/
theorem inStep_keyframes (steps : List (StyleStep ℚ)) {w : Walk ℚ} (u : Walk ℚ)
    (hforward : ∀ timings, w.scope.timings = some timings → 0 ≤ timings.duration) :
    InStep w u (w.keyframes steps) (u.keyframes steps) := by
  refine .assuming (Effect.compositional.keyframes steps w)
    (Effect.compositional.keyframes steps u) fun h _ => ?_
  cases ht : w.scope.timings with
  | none =>
    simp only [keyframes, h.scope.timings_eq, ht]
    exact inStep_report _ w u
  | some timings =>
    rw [keyframes_eq ht, keyframes_eq (h.scope.timings_eq.trans ht)]
    -- the keyframes, in a scope of their own
    let inner := fun v : Walk ℚ => (v.openKeyframes timings).playKeyframes timings.duration
      (steps.zip (resolvedOffsets steps))
    have hplay : ∀ v : Walk ℚ, Effect (v.enter none v.scope.element) (inner v) := fun v =>
      (Effect.change _ (.ease timings.easing)).trans (Effect.compositional.playKeyframes _ _ _)
    have hleave : ∀ v : Walk ℚ, Effect v (leave v.scope (inner v)) :=
      fun v => .leave rfl rfl rfl (hplay v)
    -- each run has forked once and merged its own fork, so the forks stay equal in number
    have hgathered : InStep w u ((leave w.scope (inner w)).gather [(inner w).scope.timeline])
        ((leave u.scope (inner u)).gather [(inner u).scope.timeline]) := by
      refine ⟨(hleave w).trans (Effect.compositional.gather _ _),
        (hleave u).trans (Effect.compositional.gather _ _), fun {ρ} hw _ _ => ?_⟩
      have hinner := (hw.openKeyframes timings).playKeyframes timings.duration
        (steps.zip (resolvedOffsets steps))
      have hleft := hw.leave (ρ.extends_join _ _) hinner.outside (hleave w) (hleave u)
      have htime : ((leave w.scope (inner w)).gather [(inner w).scope.timeline]).currentTime =
          w.currentTime := by
        rw [currentTime_gather]
        exact (spared_leave hw.sound.valid rfl rfl (hplay w)).currentTime_eq
      exact .of_forks 1 1 ⟨_, ρ.extends_join _ _, hleft.gather (.both hinner.scope.pair .nil)⟩
        htime.ge rfl rfl .rfl
    -- then both go on when the step is over
    refine (hgathered.renew_some fun hw _ _ => ⟨?_, ?_⟩).trans (inStep_after .keyframes _ _)
    · exact le_add_of_nonneg_right (hforward timings ht)
    · rw [hw.currentTime_eq]

/-! ### Animated steps -/

/-- The delay of a step passes in both walks. -/
theorem inStep_openAnimate (timings : Timings ℚ) (w u : Walk ℚ) :
    InStep w u (w.openAnimate timings) (u.openAnimate timings) := by
  refine (inStep_withTimings (some timings) w u).trans ?_
  simp only [openAnimate]
  split
  · exact (inStep_advance (le_of_lt ‹_›) _ _).trans (inStep_snapshot _ _)
  · exact .refl _ _

/-- A target keeps walks in step if it takes no negative time. -/
theorem inStep_moveTo {timings : Timings ℚ} (hforward : 0 ≤ timings.duration)
    (target : Target ℚ) {w : Walk ℚ} (u : Walk ℚ) (ht : w.scope.timings = some timings) :
    InStep w u (w.moveTo timings.duration target) (u.moveTo timings.duration target) := by
  cases target with
  | keyframes steps =>
    refine inStep_keyframes steps u fun timings' ht' => ?_
    obtain rfl := Option.some.inj (ht.symm.trans ht')
    exact hforward
  | style step =>
    exact ((inStep_advance hforward w u).trans (inStep_style step _ _)).trans (inStep_flush _ _)

/-- A valid animated step keeps walks in step. -/
theorem inStep_animate {timing : Timing ℚ} {target : Target ℚ}
    (h : validateAnimate timing target = .ok ()) (w u : Walk ℚ) :
    InStep w u (w.animate timing target) (u.animate timing target) := by
  refine .assuming (Effect.compositional.animate timing target w)
    (Effect.compositional.animate timing target u) fun hw hclean => ?_
  let timings := (w.readTiming timing false).1
  -- the timings are not negative: they are valid, or nothing was reported about them
  have hrest : Effect (w.readTiming timing false).2 (w.animate timing target) :=
    (((Effect.compositional.openAnimate _ _).trans (Effect.compositional.moveTo _ _ _)).trans
      (Effect.compositional.withTimings none _)).trans (Effect.compositional.after .animate _)
  have hforward : 0 ≤ timings.duration := nonneg_readTiming h (hrest.precedes.clean hclean)
  unfold animate
  dsimp only
  rw [hw.readTiming_eq]
  exact ((((inStep_readTiming timing false w u).trans (inStep_openAnimate timings _ _)).trans
    (inStep_moveTo hforward target _ (timings_openAnimate timings _))).trans
      (inStep_withTimings none _ _)).trans (inStep_after .animate _ _)

/-! ### Steps that do nothing -/

/-- Bodies that keep walks in step. -/
def Accords (body body' : Body ℚ) : Prop := ∀ w u, InStep w u (body w) (body' u)

/-- Steps of two runs that are in step, but for some of the first run that do nothing. -/
inductive Thins : List (Body ℚ) → List (Body ℚ) → Prop
  | nil : Thins [] []
  | both {bodies bodies' : List (Body ℚ)} {body body' : Body ℚ} :
      Accords body body' → Thins bodies bodies' → Thins (body :: bodies) (body' :: bodies')
  | idle {bodies bodies' : List (Body ℚ)} : Thins bodies bodies' → Thins (id :: bodies) bodies'

section Thins

variable {bodies bodies' : List (Body ℚ)}

theorem Thins.effect (h : Thins bodies bodies') : ∀ body ∈ bodies, ∀ w, Effect w (body w) := by
  induction h with
  | nil => exact fun body hbody => by cases hbody
  | both hbody _ ih => exact List.forall_mem_cons.2 ⟨fun w => (hbody w w).effect, ih⟩
  -- a step that does nothing has the empty one
  | idle _ ih => exact List.forall_mem_cons.2 ⟨fun w => .refl w, ih⟩

theorem Thins.effect' (h : Thins bodies bodies') : ∀ body ∈ bodies', ∀ w, Effect w (body w) := by
  induction h with
  | nil => exact fun body hbody => by cases hbody
  | both hbody _ ih => exact List.forall_mem_cons.2 ⟨fun w => (hbody w w).effect', ih⟩
  | idle _ ih => exact ih

/-! ### Sequences -/

/-- Steps keep walks in step one after another, and those that do nothing are skipped. -/
theorem inStep_follow (h : Thins bodies bodies') (w u : Walk ℚ) :
    InStep w u (w.follow bodies) (u.follow bodies') := by
  induction h generalizing w u with
  | nil => exact .refl w u
  | both hbody _ ih => exact (hbody w u).trans (ih _ _)
  | idle _ ih => exact ih w u

/-- Steps, before it is asked whether they have entered a scope. -/
def finishSteps (bodies : List (Body ℚ)) (w : Walk ℚ) : Walk ℚ :=
  (w.follow bodies).edit Scene.flush

/-- Where there are steps, they are finished and may then go on in a new timeline. -/
theorem steps_eq (forks : Nat) (hne : bodies ≠ []) (w : Walk ℚ) :
    w.steps forks bodies =
      if forks < (w.finishSteps bodies).scope.forks then (w.finishSteps bodies).renew none
      else w.finishSteps bodies := by
  rw [steps, if_neg (by simpa using hne)]
  rfl

theorem inStep_finishSteps (h : Thins bodies bodies') (w u : Walk ℚ) :
    InStep w u (w.finishSteps bodies) (u.finishSteps bodies') :=
  (inStep_follow h w u).trans (inStep_flush _ _)

theorem effect_renewed (p : Prop) [Decidable p] (w : Walk ℚ) :
    Effect w (if p then w.renew none else w) := by
  split
  · exact effect_renew none w
  · exact .refl w

/-- Both runs go on in a new timeline, or neither does. -/
theorem inStep_steps (h : Thins bodies bodies') (hnil : bodies = [] ↔ bodies' = [])
    (w u : Walk ℚ) :
    InStep w u (w.steps w.scope.forks bodies) (u.steps u.scope.forks bodies') := by
  by_cases hempty : bodies = []
  · rw [hempty, hnil.1 hempty]
    exact .refl w u
  have hfinish := inStep_finishSteps h w u
  rw [steps_eq _ hempty, steps_eq _ (mt hnil.2 hempty)]
  refine ⟨hfinish.effect.trans (effect_renewed _ _), hfinish.effect'.trans (effect_renewed _ _),
    fun {ρ} hw hclean hnow => ?_⟩
  have hkept := hfinish.keeps hw ((effect_renewed _ _).precedes.clean hclean) hnow
  obtain ⟨ρ₁, hρ₁, hpaired⟩ := hkept.paired
  -- the walks agree on whether any scope was entered, though not on how many
  by_cases hforks : w.scope.forks < (w.finishSteps bodies).scope.forks
  · have hforks' := hkept.forks_iff.1 hforks
    rw [if_pos hforks] at hclean ⊢
    rw [if_pos hforks']
    exact hkept.trans hρ₁ ((inStep_renew_none _ _).keeps hpaired hclean
      (hnow.trans hkept.time_le))
  · have hforks' := hforks ∘ hkept.forks_iff.2
    rw [if_neg hforks, if_neg hforks']
    exact hkept

/-- Whether the first walk goes on in a new timeline does not matter to the second. -/
theorem Sound.renewed_spare (hw : w.Sound) {s : Score ℚ} (h : w.score.Paired ρ s)
    (hpending : w.timeline.pending.isEmpty = true) (p : Prop) [Decidable p] :
    ∃ ρ' : Pairing, ρ'.Extends ρ ∧ (if p then w.renew none else w).score.Paired ρ' s := by
  split
  · exact ⟨_, ρ.extends_withSpare _, hw.renew_spare h hpending none⟩
  · exact ⟨ρ, .refl ρ, h⟩

/-- Scopes that are left at once may go on in new timelines before, each as it likes. -/
theorem InStep.leave_renewed {inner inner' : Walk ℚ} {options : Option (Options ℚ)}
    (h : InStep (w.enter options w.scope.element) (u.enter options u.scope.element) inner inner')
    (hpending : ∀ v, v = inner ∨ v = inner' → v.Valid → v.timeline.pending.isEmpty = true)
    (p p' : Prop) [Decidable p] [Decidable p'] :
    InStep w u (Walk.leave w.scope (if p then inner.renew none else inner))
      (Walk.leave u.scope (if p' then inner'.renew none else inner')) := by
  refine inStep_leave (h.effect.trans (effect_renewed p inner))
    (h.effect'.trans (effect_renewed p' inner')) fun {ρ} hw hclean hnow => ?_
  -- a new timeline is not reported, and the scope around stays as it was
  have hsame : ∀ (q : Prop) [Decidable q] (v : Walk ℚ),
      (if q then v.renew none else v).diagnostics = v.diagnostics ∧
        (if q then v.renew none else v).scope.outer = v.scope.outer := by
    intro q _ v
    split <;> exact ⟨rfl, rfl⟩
  have hclean' : inner.diagnostics = [] := (hsame p inner).1.symm.trans hclean
  obtain ⟨ρ₁, hρ₁, hinner, -⟩ := h.entered hw hw.scope.element_eq hclean' hnow
  -- first the one run goes on, then the other
  obtain ⟨ρ₂, hρ₂, hone⟩ := hinner.sound.renewed_spare hinner.score
    (hpending inner (.inl rfl) hinner.sound.valid) p
  obtain ⟨ρ₃, hρ₃, hother⟩ := hinner.sound'.renewed_spare hone.swap
    (hpending inner' (.inr rfl) hinner.sound'.valid) p'
  refine ⟨ρ₃.swap, (hρ₃.swap.trans hρ₂).trans (hρ₁.trans (ρ.extends_join _ _)), hother.swap, ?_, ?_⟩
  · rw [(hsame p inner).1, (hsame p' inner').1, hinner.diagnostics]
  · rw [(hsame p inner).2, (hsame p' inner').2, hinner.scope.outer_eq]

/-- Nothing waits where a keyframe has been finished. -/
theorem pending_edit_flush (h : w.scope.timeline < w.score.timelines.length) :
    (w.edit Scene.flush).timeline.pending.isEmpty = true := by
  have hflush : (w.edit Scene.flush).timeline = (w.score.scene w.scope.timeline).flush.timeline :=
    Score.timeline_edit_self _ h
  rw [hflush]
  exact Scene.pending_flush _

theorem pending_finishSteps (bodies : List (Body ℚ)) {w : Walk ℚ}
    (hv : (w.finishSteps bodies).Valid) :
    (w.finishSteps bodies).timeline.pending.isEmpty = true := by
  refine pending_edit_flush ?_
  have hline := hv.timeline
  rwa [show (w.finishSteps bodies).score.timelines.length = _ from
    Score.length_timelines_edit _ _ _] at hline

/-- Sequences whose steps are in step keep walks in step. -/
theorem inStep_sequence (h : Thins bodies bodies') (hnil : bodies = [] ↔ bodies' = [])
    (options : Option (Options ℚ)) (w u : Walk ℚ) :
    InStep w u (w.sequence bodies options) (u.sequence bodies' options) := by
  refine .trans ?_ (inStep_after .sequence _ _)
  simp only [openSequence]
  cases scoping options with
  | none => exact inStep_steps h hnil w u
  | some o =>
    have hopened := (inStep_renew_none (w.enter (some o) w.scope.element)
      (u.enter (some o) u.scope.element)).trans (inStep_delay (delayOf (some o)) _ _)
    -- without steps there is nothing to finish, and the scope is left as it was opened
    by_cases hempty : bodies = []
    · rw [hempty, hnil.1 hempty]
      exact hopened.leave
    · dsimp only [Option.isSome_some, if_true]
      -- the scope is left at once, so it does not matter where it goes on
      rw [steps_eq _ hempty, steps_eq _ (mt hnil.2 hempty)]
      refine (hopened.trans (inStep_finishSteps h _ _)).leave_renewed ?_ _ _
      rintro v (rfl | rfl) hv
      · exact pending_finishSteps bodies hv
      · exact pending_finishSteps bodies' hv

/-! ### Groups -/

/-- A group may finish the keyframe before its first branch. -/
theorem group_edit_flush (hw : w.Sound) (bodies : List (Body ℚ)) (options : Option (Options ℚ)) :
    (w.edit Scene.flush).group bodies options = w.group bodies options := by
  have hscope : (w.edit Scene.flush).scope = w.scope := rfl
  have hnow : (w.edit Scene.flush).currentTime = w.currentTime :=
    Score.currentTime_edit_flush w.score w.scope.timeline w.scope.timeline
  -- whoever forks the timeline finishes the keyframe anyway
  have hfork : ∀ element at?, (w.edit Scene.flush).score.fork w.scope.timeline element at? =
      w.score.fork w.scope.timeline element at? :=
    Score.fork_edit_flush hw.housed hw.valid.timeline
  cases bodies with
  | nil =>
    -- the new timeline after the group is a fork
    simp only [group, branches, gather, List.foldl_nil, renew, hscope, hnow, hfork]
    rfl
  | cons body bodies =>
    -- and the first branch is one as well
    have hbranch : (w.edit Scene.flush).branch options body w.currentTime =
        w.branch options body w.currentTime := by
      simp only [branch, openBranch, enter, hscope, hfork]
      rfl
    rw [group, group, branches, branches, hnow, hbranch]

/-- When the branches of a group that is reached at a given time begin. -/
def branchStart (options : Option (Options ℚ)) (time : ℚ) : ℚ :=
  if 0 < delayOf (τ := ℚ) options then time + delayOf options else time

theorem le_branchStart (options : Option (Options ℚ)) (time : ℚ) :
    time ≤ branchStart options time := by
  unfold branchStart
  split
  · exact le_add_of_nonneg_right (le_of_lt ‹_›)
  · exact le_rfl

theorem currentTime_openBranch (options : Option (Options ℚ)) (w : Walk ℚ) :
    (w.openBranch options).currentTime = branchStart options w.currentTime := by
  have hbegins := (begins_enter options w.scope.element w).delay (beq_self_eq_true (0 : ℚ))
    (delayOf options)
  obtain ⟨lineage, element, own, hnew⟩ := hbegins.new
  show (w.openBranch options).timeline.currentTime = _
  rw [show (w.openBranch options).timeline = _ from hnew]
  exact add_zero _

theorem Paired.delay (h : w.Paired ρ u) (time : ℚ) : (w.delay time).Paired ρ (u.delay time) := by
  unfold Walk.delay
  split
  · exact h.change (.delay time)
  · exact h

theorem Paired.openBranch (h : w.Paired ρ u) (options : Option (Options ℚ)) :
    (w.openBranch options).Paired (ρ.join w.score.timelines.length u.score.timelines.length)
      (u.openBranch options) := by
  have hopen := (h.enter options w.scope.element).delay (delayOf options)
  unfold Walk.openBranch
  rw [h.scope.element_eq]
  exact hopen

/-- One branch of each of two groups. -/
theorem Paired.insideBranch (h : w.Paired ρ u) {body body' : Body ℚ} (hbody : Accords body body')
    {options : Option (Options ℚ)} (hclean : (w.insideBranch options body).diagnostics = [])
    (hnow : 0 ≤ w.currentTime) :
    ∃ ρ' : Pairing, ρ'.Extends ρ ∧
      (w.insideBranch options body).Paired ρ' (u.insideBranch options body') ∧
        branchStart options w.currentTime ≤ (w.insideBranch options body).currentTime := by
  have hbegin := currentTime_openBranch options w
  have hlater := hnow.trans (le_branchStart options w.currentTime)
  -- the body is in step from when the branch begins
  have hkept := (hbody _ _).keeps (h.openBranch options) hclean (hbegin ▸ hlater)
  obtain ⟨ρ', hρ', hinner⟩ := hkept.paired
  exact ⟨ρ', hρ'.trans (ρ.extends_join _ _), hinner, hbegin ▸ hkept.time_le⟩

/-- When a branch is left, nothing waits in the timeline of the group, and no time has gone by
there. -/
theorem leave_branch (hv : w.Valid) {inner : Walk ℚ} {options : Option (Options ℚ)}
    (h : Effect (w.enter options w.scope.element) inner) :
    (leave w.scope inner).currentTime = w.currentTime ∧
      (leave w.scope inner).timeline.pending.isEmpty = true := by
  refine ⟨(spared_leave hv rfl rfl h).currentTime_eq, ?_⟩
  rw [h.timeline_leave hv rfl rfl]
  exact Scene.pending_flush _

/-- The branches do not end before they are told to. -/
theorem le_branches (options : Option (Options ℚ)) (bodies : List (Body ℚ)) (furthest : ℚ)
    (w : Walk ℚ) : furthest ≤ (branches options bodies furthest w).2.1 := by
  induction bodies generalizing furthest w with
  | nil => exact le_rfl
  | cons body bodies ih => exact (le_later_left _ _).trans (ih _ _)

/-- The branches of two groups that are reached at the same time: if what is over before the
first branch begins does not count, the longest branches are equally long. -/
structure BranchesKept (ρ : Pairing) (start : ℚ) (bodies bodies' : List (Body ℚ))
    (done done' : Walk ℚ × ℚ × List TimelineId) : Prop where
  paired : ∃ ρ' : Pairing, ρ'.Extends ρ ∧ done.1.Paired ρ' done'.1 ∧
    ρ'.Gathers done.2.2 done'.2.2
  furthest : max done.2.1 start = max done'.2.1 start
  le : bodies ≠ [] → start ≤ done.2.1
  le' : bodies' ≠ [] → start ≤ done'.2.1

/-- **Branches of which some do nothing lead to the same walk**, up to the timelines that are left
over, and the longest of them end at the same time. -/
theorem Paired.branches (h : Thins bodies bodies') (options : Option (Options ℚ))
    (hw : w.Paired ρ u) (hpending : w.timeline.pending.isEmpty = true) {start : ℚ}
    (hstart : branchStart options w.currentTime = start) (hnow : 0 ≤ w.currentTime)
    {furthest furthest' : ℚ} (hfurthest : max furthest start = max furthest' start)
    (hclean : (Walk.branches options bodies furthest w).1.diagnostics = []) :
    BranchesKept ρ start bodies bodies' (Walk.branches options bodies furthest w)
      (Walk.branches options bodies' furthest' u) := by
  -- on the branches; the ends so far are arbitrary, as each branch may raise them
  induction h generalizing w u ρ furthest furthest' with
  | nil => exact ⟨⟨ρ, .refl ρ, hw, .nil⟩, hfurthest, fun h => absurd rfl h, fun h => absurd rfl h⟩
  | @both bodies bodies' body body' hbody hrest ih =>
    -- both groups have this branch: it is in step, is left in both, and ends at the same time
    let inner := w.insideBranch options body
    let inner' := u.insideBranch options body'
    have heffect := effect_insideBranch (fun w => (hbody w w).effect) options w
    have heffect' := effect_insideBranch (fun w => (hbody w w).effect') options u
    have hrestEffect : Effect (Walk.leave w.scope inner)
        (Walk.branches options (body :: bodies) furthest w).1 :=
      Effect.compositional.branches hrest.effect options _ _
    obtain ⟨ρ₁, hρ₁, hinner, hend⟩ :=
      hw.insideBranch hbody (hrestEffect.precedes.clean hclean) hnow
    have hleft := hw.leave hρ₁ hinner.outside (.leave rfl rfl rfl heffect)
      (.leave rfl rfl rfl heffect')
    obtain ⟨hsame, hpending'⟩ := leave_branch hw.sound.valid heffect
    have htime : inner'.currentTime = inner.currentTime := hinner.currentTime_eq
    -- an end that is the same in both does not change which of the ends so far is later
    have hmax : max (Quantity.later furthest inner.currentTime) start =
        max (Quantity.later furthest' inner'.currentTime) start := by
      rw [later_eq_max, later_eq_max, htime, max_right_comm, hfurthest, max_right_comm]
    obtain ⟨⟨ρ₂, hρ₂, hdone, hids⟩, hmax', -, -⟩ := ih hleft hpending' (hsame.symm ▸ hstart)
      (hsame.symm ▸ hnow) hmax hclean
    rw [hstart] at hend
    -- either branch ends after `start`, so from here on the longest branches do
    have hend' : start ≤ inner'.currentTime := htime ▸ hend
    exact ⟨⟨ρ₂, hρ₂.trans hρ₁, hdone, .both (hρ₂.pair hinner.scope.pair) hids⟩, hmax',
      fun _ => (hend.trans (le_later_right _ _)).trans (le_branches _ _ _ _),
      fun _ => (hend'.trans (le_later_right _ _)).trans (le_branches _ _ _ _)⟩
  | @idle bodies bodies' hrest ih =>
    -- nothing happens, and the branch is over when it begins
    let inner := w.insideBranch options id
    have heffect := effect_insideBranch Effect.refl options w
    have hrestEffect : Effect (Walk.leave w.scope inner)
        (Walk.branches options (id :: bodies) furthest w).1 :=
      Effect.compositional.branches hrest.effect options _ _
    -- nothing is reported in the branch, so nothing is when it is opened
    have hclean' : inner.diagnostics = [] := hrestEffect.precedes.clean hclean
    have hleave : Effect w (Walk.leave w.scope inner) := .leave rfl rfl rfl heffect
    have hbefore : w.diagnostics = [] := hleave.precedes.clean hclean'
    have hsilent : (w.openBranch options).diagnostics = w.diagnostics :=
      hclean'.trans hbefore.symm
    -- only the first group has the branch, and its timeline is left over
    have hleft := hw.describe hpending hsilent
    obtain ⟨hsame, hpending'⟩ := leave_branch hw.sound.valid heffect
    have hend : inner.currentTime = start := (currentTime_openBranch options w).trans hstart
    -- an end at `start` is not counted
    have hmax : max (Quantity.later furthest inner.currentTime) start = max furthest' start := by
      rw [later_eq_max, hend, max_assoc, max_self, hfurthest]
    obtain ⟨⟨ρ₂, hρ₂, hdone, hids⟩, hmax', -, hle'⟩ := ih hleft hpending' (hsame.symm ▸ hstart)
      (hsame.symm ▸ hnow) hmax hclean
    have hline : inner.scope.timeline = w.score.timelines.length :=
      (congrArg Scope.timeline (scope_delay (delayOf options) _)).trans (enter_timeline w options _)
    have hspare : ρ₂.spare inner.scope.timeline := hρ₂.spare (.inr hline)
    exact ⟨⟨ρ₂, hρ₂.trans (ρ.extends_withSpare _), hdone, .spare hspare hids⟩, hmax',
      fun _ => (hend.ge.trans (le_later_right _ _)).trans (le_branches _ _ _ _), hle'⟩

theorem forks_branches (options : Option (Options ℚ)) (bodies : List (Body ℚ)) (furthest : ℚ)
    (w : Walk ℚ) :
    (branches options bodies furthest w).1.scope.forks = w.scope.forks + bodies.length := by
  induction bodies generalizing furthest w with
  | nil => rfl
  | cons body bodies ih =>
    have hrest := ih (w.branch options body furthest).2.1 (w.branch options body furthest).1
    refine hrest.trans ?_
    show w.scope.forks + 1 + bodies.length = w.scope.forks + (bodies.length + 1)
    omega

/-- Groups whose branches are in step keep walks in step. -/
theorem inStep_group (h : Thins bodies bodies') (hnil : bodies = [] ↔ bodies' = [])
    (options : Option (Options ℚ)) (w u : Walk ℚ) :
    InStep w u (w.group bodies options) (u.group bodies' options) := by
  refine .assuming (Effect.compositional.group h.effect options w)
    (Effect.compositional.group h.effect' options u) fun hw _ => ?_
  -- a keyframe that waits is finished first, as the lemma about branches asks for it
  rw [← group_edit_flush hw.sound, ← group_edit_flush hw.sound']
  let v := w.edit Scene.flush
  let v' := u.edit Scene.flush
  let done := branches options bodies v.currentTime v
  let done' := branches options bodies' v'.currentTime v'
  refine (inStep_flush w u).trans (.trans ?_ (inStep_after .group _ _))
  show InStep v v' ((done.1.gather done.2.2).renew (some done.2.1))
    ((done'.1.gather done'.2.2).renew (some done'.2.1))
  have heffect := Effect.compositional.branches h.effect options v.currentTime v
  have heffect' := Effect.compositional.branches h.effect' options v'.currentTime v'
  have hgather := Effect.compositional.gather done.2.2 done.1
  have hspared : v.Valid → done.1.currentTime = v.currentTime :=
    fun hv => (spared_branches h.effect options v.currentTime hv).1.currentTime_eq
  have hkept : ∀ {ρ : Pairing}, v.Paired ρ v' → (done.1.gather done.2.2).diagnostics = [] →
      0 ≤ v.currentTime →
        BranchesKept ρ (branchStart options v.currentTime) bodies bodies' done done' := by
    intro ρ hv hclean hnow
    have hfurthest : max v.currentTime (branchStart options v.currentTime) =
        max v'.currentTime (branchStart options v.currentTime) := by
      rw [hv.currentTime_eq]
    exact hv.branches h options (pending_edit_flush hw.sound.valid.timeline) rfl hnow hfurthest
      (hgather.precedes.clean hclean)
  have hgathered : InStep v v' (done.1.gather done.2.2) (done'.1.gather done'.2.2) := by
    refine ⟨heffect.trans hgather, heffect'.trans (Effect.compositional.gather _ _),
      fun {ρ} hv hclean hnow => ?_⟩
    obtain ⟨⟨ρ', hρ', hdone, hids⟩, -, -, -⟩ := hkept hv hclean hnow
    -- both have entered scopes, or neither has a branch
    refine .of_forks bodies.length bodies'.length ⟨ρ', hρ', hdone.gather hids⟩ ?_
      (forks_branches options bodies _ v) (forks_branches options bodies' _ v') ?_
    · rw [currentTime_gather, hspared hv.sound.valid]
    · rw [List.length_eq_zero_iff, List.length_eq_zero_iff]
      exact hnil
  refine hgathered.renew_some fun hv hclean hnow => ?_
  obtain ⟨-, hmax, hle, hle'⟩ := hkept hv hclean hnow
  refine ⟨le_branches options bodies _ v, ?_⟩
  -- without branches the group ends when it is reached, else with the longest of them
  by_cases hempty : bodies = []
  · simp only [done, done', hempty, hnil.1 hempty, branches, hv.currentTime_eq]
  · rw [max_eq_left (hle hempty), max_eq_left (hle' (mt hnil.2 hempty))] at hmax
    exact hmax.symm

end Thins

/-! ### References -/

section Body

variable {body body' : Body ℚ}

theorem inStep_reference (hb : Accords body body') (options : Option (Options ℚ))
    (w u : Walk ℚ) : InStep w u (w.reference body options) (u.reference body' options) :=
  ((inStep_update true options w u).trans (hb _ _)).trans (inStep_after .reference _ _)

theorem inStep_referenceDelay (options : Option (Options ℚ)) (w u : Walk ℚ) :
    InStep w u (w.referenceDelay options) (u.referenceDelay options) := by
  unfold referenceDelay
  split
  · exact .refl w u
  · split
    · exact .refl w u
    · exact (inStep_report _ w u).trans (inStep_delay _ _ _)

/-- The use of a reference keeps walks in step if its animation does. -/
theorem inStep_animateRef (hb : Accords body body') (defaults options : Option (Options ℚ))
    (w u : Walk ℚ) :
    InStep w u (w.animateRef body defaults options) (u.animateRef body' defaults options) := by
  have hinner : InStep (w.enter options w.scope.element) (u.enter options u.scope.element)
      ((w.openUse defaults options).reference body defaults)
      ((u.openUse defaults options).reference body' defaults) :=
    (((inStep_renew_none _ _).trans (inStep_referenceDelay options _ _)).trans
      (inStep_referenceDelay defaults _ _)).trans (inStep_reference hb defaults _ _)
  refine (hinner.leave.renew_some fun hw hclean hnow => ?_).trans (inStep_after .animateRef _ _)
  obtain ⟨ρ', -, hpaired, hle⟩ := hinner.entered hw hw.scope.element_eq hclean hnow
  exact ⟨hle, hpaired.currentTime_eq⟩

/-! ### Delegation -/

/-- Instructions are placed at the same times. -/
theorem Paired.placeAll (h : w.Paired ρ u) (is : List (Instruction ℚ)) (furthest : ℚ) :
    (Walk.placeAll is furthest w).2.Paired ρ (Walk.placeAll is furthest u).2 ∧
      (Walk.placeAll is furthest u).1 = (Walk.placeAll is furthest w).1 ∧
        furthest ≤ (Walk.placeAll is furthest w).1 := by
  induction is generalizing furthest w u with
  | nil => exact ⟨h, rfl, le_rfl⟩
  | cons i is ih =>
    have hplace : (u.place i).1 = (w.place i).1 ∧ (w.place i).2.Paired ρ (u.place i).2 := by
      unfold Walk.place
      rw [h.scope.options_eq, h.currentTime_eq]
      exact ⟨rfl, h.place _⟩
    obtain ⟨hpaired, htime, hle⟩ := ih hplace.2 (Quantity.later furthest (w.place i).1)
    have hcons : ∀ v : Walk ℚ, Walk.placeAll (i :: is) furthest v =
        Walk.placeAll is (Quantity.later furthest (v.place i).1) (v.place i).2 := fun v => rfl
    rw [hcons, hcons, hplace.1]
    exact ⟨hpaired, htime, (le_later_left _ _).trans hle⟩

/-- What is delegated to an element is placed at the same times. -/
theorem Paired.placeDelegated (h : w.Paired ρ u) (setting : Setting ℚ) :
    (w.placeDelegated setting).2.Paired ρ (u.placeDelegated setting).2 ∧
      (u.placeDelegated setting).1 = (w.placeDelegated setting).1 ∧
        w.currentTime ≤ (w.placeDelegated setting).1 := by
  unfold Walk.placeDelegated
  rw [h.scope.options_eq, h.scope.element_eq, h.currentTime_eq]
  split
  · exact ⟨h, rfl, le_rfl⟩
  · exact h.placeAll _ _

/-- Delegated animations are placed alike, in a scope that is then left. -/
theorem inStep_animateChild (setting : Setting ℚ) (options : Option (Options ℚ))
    (w u : Walk ℚ) :
    InStep w u (w.animateChild setting options) (u.animateChild setting options) := by
  refine .assuming (Effect.compositional.animateChild setting options w)
    (Effect.compositional.animateChild setting options u) fun h _ => ?_
  refine .trans ?_ (inStep_after .animateChild _ _)
  let placed := fun v : Walk ℚ => (v.enter options v.scope.element).placeDelegated setting
  have hplaced : ∀ {ρ : Pairing}, w.Paired ρ u →
      (placed w).2.Paired (ρ.join w.score.timelines.length u.score.timelines.length) (placed u).2 ∧
        (placed u).1 = (placed w).1 ∧ w.currentTime ≤ (placed w).1 := by
    intro ρ h
    have hall := (h.enter options w.scope.element).placeDelegated setting
    rw [currentTime_enter] at hall
    simp only [placed, h.scope.element_eq]
    exact hall
  have hleave : InStep w u (leave w.scope (placed w).2) (leave u.scope (placed u).2) :=
    inStep_leave (Effect.compositional.placeDelegated setting _)
      (Effect.compositional.placeDelegated setting _)
      fun {ρ} h _ _ => ⟨_, ρ.extends_join _ _, (hplaced h).1.outside⟩
  -- the outer scope has not moved in the meantime
  have htime : ∀ v : Walk ℚ, v.Valid →
      (leave v.scope (placed v).2).currentTime = v.currentTime := fun v hv =>
    (spared_leave hv rfl rfl (Effect.compositional.placeDelegated setting _)).currentTime_eq
  have hcontains : setting.delegated.contains u.scope.element =
      setting.delegated.contains w.scope.element := by
    rw [h.scope.element_eq]
  rw [hcontains]
  split
  · show InStep w u
      (if (leave w.scope (placed w).2).currentTime != (placed w).1 then
        (leave w.scope (placed w).2).renew (some (placed w).1) else leave w.scope (placed w).2)
      (if (leave u.scope (placed u).2).currentTime != (placed u).1 then
        (leave u.scope (placed u).2).renew (some (placed u).1) else leave u.scope (placed u).2)
    -- so whether it has to wait is decided alike
    rw [htime w h.sound.valid, htime u h.sound'.valid, h.currentTime_eq, (hplaced h).2.1]
    split
    · exact hleave.renew_some fun _ _ _ => ⟨(hplaced h).2.2, rfl⟩
    · exact hleave
  · exact .refl w u

/-! ### Queries -/

theorem inStep_holdStyles (delay : ℚ) (w u : Walk ℚ) :
    InStep w u (w.holdStyles delay) (u.holdStyles delay) := by
  refine .assuming (Effect.compositional.holdStyles delay w)
    (Effect.compositional.holdStyles delay u) fun h _ => ?_
  unfold holdStyles
  rw [h.scope.previous_eq, h.currentTime_eq, h.timeline_eq]
  split
  · exact (inStep_snapshot w u).trans
      (inStep_rescope (f := fun a => { a with previous := none }) (fun _ _ _ => rfl)
        (fun _ => rfl) _ _)
  · exact .refl w u

/-- Queries that select the same elements are opened alike. -/
theorem inStep_openQuery (q : Selection) (elements : List ElementId)
    (options : Option (Options ℚ)) (w u : Walk ℚ) :
    InStep w u (w.openQuery q elements options) (u.openQuery q elements options) := by
  have hreposition : ∀ v v' : Walk ℚ, InStep v v'
      { v with scope := { v.scope with total := elements.length, staggerTime := 0 } }
      { v' with scope := { v'.scope with total := elements.length, staggerTime := 0 } } :=
    inStep_rescope (f := fun a => { a with total := elements.length, staggerTime := 0 })
      (fun _ _ _ => rfl) (fun _ => rfl)
  unfold openQuery
  dsimp only
  refine (inStep_holdStyles (delayOf options) w u).trans ?_
  split
  · exact (inStep_report _ _ _).trans (hreposition _ _)
  · exact hreposition _ _

/-- One match of each of two queries. -/
theorem Paired.insideMatch (h : w.Paired ρ u) (hb : Accords body body')
    {options : Option (Options ℚ)} {element : ElementId} {index : Nat}
    (hclean : (w.insideMatch options body element index).diagnostics = [])
    (hnow : 0 ≤ w.currentTime) :
    ∃ ρ' : Pairing, ρ'.Extends (ρ.join w.score.timelines.length u.score.timelines.length) ∧
      (w.insideMatch options body element index).Paired ρ'
        (u.insideMatch options body' element index) := by
  have hindexed : (w.indexed index).Paired ρ (u.indexed index) :=
    h.rescope (h.scope.map (f := fun a => { a with index := index }) fun _ _ _ => rfl)
      (.rescope w _ rfl rfl) (.rescope u _ rfl rfl)
  have hinside : InStep ((w.indexed index).enter options element)
      ((u.indexed index).enter options element) (w.insideMatch options body element index)
      (u.insideMatch options body' element index) :=
    ((inStep_delay (delayOf options) _ _).trans (hb _ _)).trans (inStep_flush _ _)
  obtain ⟨ρ', hρ', hinner, -⟩ := hinside.entered hindexed rfl hclean hnow
  exact ⟨ρ', hρ', hinner⟩

/-- The matches of two queries. -/
structure MatchesKept (ρ : Pairing) (furthest : ℚ)
    (done done' : Walk ℚ × ℚ × Option TimelineId) : Prop where
  paired : ∃ ρ' : Pairing, ρ'.Extends ρ ∧ done.1.Paired ρ' done'.1 ∧
    Option.Rel ρ'.pair done.2.2 done'.2.2
  ends : done'.2.1 = done.2.1
  le : furthest ≤ done.2.1

/-- The matches of two queries lead to paired walks and end at the same time. -/
theorem Paired.matchesFrom (h : w.Paired ρ u) (hb : Accords body body')
    (options : Option (Options ℚ)) {elements : List ElementId} {index : Nat} {furthest : ℚ}
    {self self' : Option TimelineId}
    (hclean : (Walk.matchesFrom options body elements index furthest self w).1.diagnostics = [])
    (hnow : 0 ≤ w.currentTime) (hself : Option.Rel ρ.pair self self') :
    MatchesKept ρ furthest (Walk.matchesFrom options body elements index furthest self w)
      (Walk.matchesFrom options body' elements index furthest self' u) := by
  induction elements generalizing w u ρ index furthest self self' with
  | nil => exact ⟨⟨ρ, .refl ρ, h, hself⟩, rfl, le_rfl⟩
  | cons element elements ih =>
    let inner := w.insideMatch options body element index
    let inner' := u.insideMatch options body' element index
    have heffect := effect_insideMatch (fun w => (hb w w).effect) options element index w
    have heffect' := effect_insideMatch (fun w => (hb w w).effect') options element index u
    have hleave : Effect w (Walk.leave w.scope inner) :=
      .leave (u := w.indexed index) rfl rfl rfl heffect
    have hleave' : Effect u (Walk.leave u.scope inner') :=
      .leave (u := u.indexed index) rfl rfl rfl heffect'
    rw [matchesFrom_cons] at hclean
    have hrest : Effect (Walk.leave w.scope inner) _ :=
      Effect.compositional.matchesFrom (fun w => (hb w w).effect) options elements (index + 1)
        (Quantity.later furthest inner.currentTime)
        (if element = w.scope.element then some w.score.timelines.length else self)
        (Walk.leave w.scope inner)
    obtain ⟨ρ₁, hρ₁, hinner⟩ := h.insideMatch hb (hrest.precedes.clean hclean) hnow
    have hold : ρ₁.Extends ρ := hρ₁.trans (ρ.extends_join _ _)
    have hleft := h.leave hold hinner.outside hleave hleave'
    have hsame : (Walk.leave w.scope inner).currentTime = w.currentTime :=
      (spared_leave (u := w.indexed index) h.sound.valid rfl rfl heffect).currentTime_eq
    -- the timeline of the match for the element itself is a new one in both runs, and these are
    -- paired
    have hself₁ : Option.Rel ρ₁.pair
        (if element = w.scope.element then some w.score.timelines.length else self)
        (if element = u.scope.element then some u.score.timelines.length else self') := by
      rw [h.scope.element_eq]
      split
      · exact .some (hρ₁.pair (.inr ⟨rfl, rfl⟩))
      · cases hself with
        | none => exact .none
        | some hp => exact .some (hold.pair hp)
    obtain ⟨⟨ρ₂, hρ₂, hdone, hself₂⟩, htime, hle⟩ := ih hleft hclean (hsame.symm ▸ hnow) hself₁
    rw [matchesFrom_cons, matchesFrom_cons,
      show (u.insideMatch options body' element index).currentTime = _ from hinner.currentTime_eq]
    exact ⟨⟨ρ₂, hρ₂.trans hold, hdone, hself₂⟩, htime, (le_later_left _ _).trans hle⟩

theorem forks_matchesFrom (options : Option (Options ℚ)) (body : Body ℚ)
    (elements : List ElementId) (index : Nat) (furthest : ℚ) (self : Option TimelineId)
    (w : Walk ℚ) :
    (matchesFrom options body elements index furthest self w).1.scope.forks =
      w.scope.forks + elements.length := by
  induction elements generalizing index furthest self w with
  | nil => rfl
  | cons element elements ih =>
    rw [matchesFrom_cons, ih]
    show w.scope.forks + 1 + elements.length = w.scope.forks + (elements.length + 1)
    omega

/-- Queries are closed alike if the matches for the element itself are paired. -/
theorem Paired.closeQuery (h : w.Paired ρ u) (furthest : ℚ) {self self' : Option TimelineId}
    (hself : Option.Rel ρ.pair self self') :
    ∃ ρ' : Pairing, ρ'.Extends ρ ∧
      (w.closeQuery furthest self).Paired ρ' (u.closeQuery furthest self') := by
  have hback := h.rescope
    (h.scope.map (f := fun a => { a with index := 0, total := 0 }) fun _ _ _ => rfl)
    (.rescope w _ rfl rfl) (.rescope u _ rfl rfl)
  have hrenew := hback.renew (some furthest)
  refine ⟨_, ρ.extends_join w.score.timelines.length u.score.timelines.length, ?_⟩
  cases hself with
  | none => exact hrenew
  | some hp => exact (hrenew.merge (.inl hp)).change .snapshot

theorem forks_closeQuery (furthest : ℚ) (self : Option TimelineId) (w : Walk ℚ) :
    (w.closeQuery furthest self).scope.forks = w.scope.forks := by
  cases self <;> rfl

/-- What is taken over from the element itself does not touch the clock. -/
theorem currentTime_closeQuery (furthest : ℚ) (self : Option TimelineId) (w : Walk ℚ) :
    (w.closeQuery furthest self).currentTime = (w.renew (some furthest)).currentTime := by
  cases self with
  | none => rfl
  | some id =>
    apply Timeline.currentTime_eq_of_skeleton_eq
    refine Score.timeline_edit_induct
      (P := fun t => t.skeleton = (w.renew (some furthest)).timeline.skeleton)
      (fun he => (Scene.skeleton_snapshot _).trans he) ?_
    exact skeleton_merge _ _ _ _

/-- Queries keep walks in step if their animations do. -/
theorem inStep_query (setting : Setting ℚ) (hb : Accords body body') (q : Selection)
    (options : Option (Options ℚ)) (w u : Walk ℚ) :
    InStep w u (w.query setting body q options) (u.query setting body' q options) := by
  have he : ∀ w, Effect w (body w) := fun w => (hb w w).effect
  have he' : ∀ w, Effect w (body' w) := fun w => (hb w w).effect'
  refine .assuming (Effect.compositional.query setting he q options w)
    (Effect.compositional.query setting he' q options u) fun h _ => ?_
  let elements := setting.select w.scope.element q
  let opened := w.openQuery q elements options
  let opened' := u.openQuery q elements options
  let done := matchesFrom options body elements 0 w.currentTime none opened
  let done' := matchesFrom options body' elements 0 w.currentTime none opened'
  -- the host is asked the same in both runs, and the matches start at the same time
  have hquery : u.query setting body' q options =
      (done'.1.closeQuery done'.2.1 done'.2.2).after .query := by
    simp only [query, h.scope.element_eq, h.currentTime_eq]
    rfl
  rw [hquery]
  refine (inStep_openQuery q elements options w u).trans (.trans ?_ (inStep_after .query _ _))
  show InStep opened opened' (done.1.closeQuery done.2.1 done.2.2)
    (done'.1.closeQuery done'.2.1 done'.2.2)
  have hmatched := Effect.compositional.matchesFrom he options elements 0 w.currentTime none opened
  have hmatched' :=
    Effect.compositional.matchesFrom he' options elements 0 w.currentTime none opened'
  have hclosed := Effect.compositional.closeQuery done.2.1 done.2.2 done.1
  refine ⟨hmatched.trans hclosed, hmatched'.trans (Effect.compositional.closeQuery _ _ _),
    fun {ρ} ho hclean hnow => ?_⟩
  have hnow' : opened.currentTime = w.currentTime := currentTime_openQuery q elements options w
  obtain ⟨⟨ρ₁, hρ₁, hdone, hself⟩, hends, hle⟩ :=
    ho.matchesFrom hb options (hclosed.precedes.clean hclean) hnow .none
  obtain ⟨ρ₂, hρ₂, hpaired⟩ := hdone.closeQuery done.2.1 hself
  -- the timeline of the query is not touched by the matches
  have hspared : done.1.currentTime = opened.currentTime :=
    (spared_matchesFrom he options elements 0 _ none ho.sound.valid).currentTime_eq
  have htime : opened.currentTime ≤ (done.1.closeQuery done.2.1 done.2.2).currentTime := by
    rw [currentTime_closeQuery]
    exact le_currentTime_renew hspared.ge (hnow'.trans_le hle)
  rw [hends]
  exact .of_forks elements.length elements.length ⟨ρ₂, hρ₂.trans hρ₁, hpaired⟩ htime
    ((forks_closeQuery _ _ _).trans (forks_matchesFrom _ _ _ _ _ _ _))
    ((forks_closeQuery _ _ _).trans (forks_matchesFrom _ _ _ _ _ _ _)) .rfl

/-! ### Staggers -/

/-- A stagger waits for the same time, as its position is the same. -/
theorem inStep_openStagger (timing : Timing ℚ) (outer : Surroundings ℚ) (w u : Walk ℚ) :
    InStep w u (w.openStagger timing outer) (u.openStagger timing outer) := by
  refine .assuming (Effect.compositional.openStagger timing outer w)
    (Effect.compositional.openStagger timing outer u) fun h _ => ?_
  unfold openStagger
  dsimp only
  rw [h.readTiming_eq, scope_readTiming, scope_readTiming, h.scope.index_eq, h.scope.total_eq]
  exact (inStep_readTiming timing true w u).trans (inStep_delay _ _ _)

/-- Staggers keep walks in step if their animations do. -/
theorem inStep_stagger (hb : Accords body body') (timing : Timing ℚ) (w u : Walk ℚ) :
    InStep w u (w.stagger body timing) (u.stagger body' timing) := by
  refine .assuming (Effect.compositional.stagger (fun w => (hb w w).effect) timing w)
    (Effect.compositional.stagger (fun w => (hb w w).effect') timing u) fun {ρ} h _ => ?_
  unfold stagger
  rw [h.scope.outer_eq]
  cases w.scope.outer with
  | none => exact ((inStep_report _ w u).trans (hb _ _)).trans (inStep_after .stagger _ _)
  | some outer =>
    let inner := w.openStagger timing outer
    let inner' := u.openStagger timing outer
    have hopened : InStep w u inner inner' := inStep_openStagger timing outer w u
    have hbody : InStep inner inner' ((body inner).after .stagger)
        ((body' inner').after .stagger) := (hb _ _).trans (inStep_after .stagger _ _)
    have hclose : ∀ (v : Walk ℚ) (id : TimelineId) (start : ℚ),
        Effect v (v.closeStagger id start outer) := fun v id start => .rescope _ _ rfl rfl
    -- what is recorded in the scope around has to be compared, so this is no mere composition
    refine ⟨(hopened.effect.trans hbody.effect).trans (hclose _ _ _),
      (hopened.effect'.trans hbody.effect').trans (hclose _ _ _), fun {ρ} h hclean hnow => ?_⟩
    have hfirst := hopened.keeps h
      ((hbody.effect.trans (hclose _ _ _)).precedes.clean hclean) hnow
    obtain ⟨ρ₁, hρ₁, hinner⟩ := hfirst.paired
    have hkept := hfirst.trans hρ₁ (hbody.keeps hinner ((hclose _ _ _).precedes.clean hclean)
      (hnow.trans hfirst.time_le))
    obtain ⟨ρ₂, hρ₂, hpaired⟩ := hkept.paired
    -- the timeline of the stagger is still the same in both runs, and so is the recorded time
    have hline : ((body' inner').after .stagger).score.timeline u.scope.timeline =
        ((body inner).after .stagger).score.timeline w.scope.timeline :=
      (hpaired.score.pair (hρ₂.pair h.scope.pair)).2.2
    have htime : inner'.currentTime = inner.currentTime := hinner.currentTime_eq
    show Kept ρ w u
      (((body inner).after .stagger).closeStagger w.scope.timeline inner.currentTime outer)
      (((body' inner').after .stagger).closeStagger u.scope.timeline inner'.currentTime outer)
    rw [htime]
    refine ⟨⟨ρ₂, hρ₂, ?_⟩, hkept.time_le, hkept.forks_le, hkept.forks_le', hkept.forks_iff⟩
    unfold closeStagger
    dsimp only
    rw [hline]
    exact hpaired.rescope (hpaired.scope.map (f := fun a => { a with outer := some _ })
      fun _ _ _ => rfl) (.rescope _ _ rfl rfl) (.rescope _ _ rfl rfl)

end Body

end Walk

/-! ### Trees -/

/-- The steps that are deleted do nothing. -/
theorem StepsPruneTo.thins {setting : Setting ℚ} {steps steps' : List (Animation ℚ)}
    (h : StepsPruneTo steps steps')
    (hkept : ∀ step ∈ steps, ∀ step', step.PrunesTo step' →
      Walk.Accords (step.body setting) (step'.body setting)) :
    Walk.Thins (bodies setting steps) (bodies setting steps') := by
  induction steps generalizing steps' with
  | nil =>
    cases h
    exact .nil
  | cons step steps ih =>
    obtain ⟨hstep, hsteps⟩ := List.forall_mem_cons.1 hkept
    cases h with
    | keep hprunes hrest => exact .both (hstep _ hprunes) (ih hrest hsteps)
    | delete hdescribes hrest =>
      rw [bodies, Animation.body_of_describes setting hdescribes]
      exact .idle (ih hrest hsteps)

/-- A valid tree keeps walks in step with what is left of it. -/
theorem Animation.inStep {setting : Setting ℚ} {tree tree' : Animation ℚ}
    (hvalid : tree.validate = .ok ()) (h : tree.PrunesTo tree') :
    Walk.Accords (tree.body setting) (tree'.body setting) := by
  induction tree using Animation.induct generalizing tree' with
  | trigger | state | transition =>
    cases h
    exact Walk.InStep.refl
  | sequence steps options ih =>
    cases h with
    | sequence hsteps hne =>
      refine Walk.inStep_sequence (hsteps.thins fun step hstep step' => ?_)
        (hsteps.bodies_eq_nil_iff setting hne) options
      exact ih step hstep (validateSteps_eq_ok.1 hvalid step hstep)
  | group steps options ih =>
    cases h with
    | group hsteps hne =>
      refine Walk.inStep_group (hsteps.thins fun step hstep step' => ?_)
        (hsteps.bodies_eq_nil_iff setting hne) options
      exact ih step hstep (validateSteps_eq_ok.1 hvalid step hstep)
  | animate timing target =>
    cases h
    exact Walk.inStep_animate hvalid
  | keyframes steps =>
    -- keyframes stand in an animated step only
    cases hvalid
  | style step =>
    cases h
    exact Walk.inStep_style step
  | reference animation options ih =>
    cases h with
    | reference hinner => exact Walk.inStep_reference (ih hvalid hinner) options
  | animateChild options =>
    cases h
    exact Walk.inStep_animateChild setting options
  | animateRef animation defaults options ih =>
    cases h with
    | animateRef hinner => exact Walk.inStep_animateRef (ih hvalid hinner) defaults options
  | query selection animation options ih =>
    cases h with
    | query hinner =>
      exact Walk.inStep_query setting (ih (validate_of_validate_query hvalid) hinner) selection
        options
  | stagger timing animation ih =>
    cases h with
    | stagger hinner => exact Walk.inStep_stagger (ih hvalid hinner) timing

end Choreography
