/-
Choreography/Proofs/Length.lean

How long a tree takes.

In a tree of sequences, groups and animated steps with given timings, how long everything
takes can be read off the tree (`Animation.length`): the steps of a sequence add up, and a
group takes as long as its longest step and its delay.

The clock of a walk is spread over the timelines that the walk goes through: some of them
start where the clock stands, some are moved by a delay, and on others a local clock runs on.
What a node adds to the time is independent of that.  An induction over the tree needs no more
than that the clock is not before zero (`Animation.Takes`), because a group or keyframes that
are over at time zero go on at the time of their scope instead, which is then zero as well.

Main result: `currentTime_of_composed`.
-/
import Mathlib
import Choreography.Proofs.Stagger

namespace Choreography

/-! ### Trees -/

/-- A tree of sequences without options, groups, and animated steps whose timings are given
and not negative. -/
inductive Animation.Composed : Animation ℚ → Prop
  | sequence {steps : List (Animation ℚ)} :
      (∀ step ∈ steps, step.Composed) → (Animation.sequence steps none).Composed
  | group {steps : List (Animation ℚ)} (options : Option (Options ℚ)) :
      (∀ step ∈ steps, step.Composed) → (Animation.group steps options).Composed
  | animate {timings : Timings ℚ} (target : Target ℚ) :
      0 ≤ timings.duration → 0 ≤ timings.delay →
        (Animation.animate (.fixed timings) target).Composed

/-- How long things take that begin together after a delay; nothing takes no time. -/
def longest (delay : ℚ) (lengths : List ℚ) : ℚ :=
  lengths.max?.elim 0 fun length => max delay 0 + length

mutual

/-- How long a composed tree takes. -/
def Animation.length : Animation ℚ → ℚ
  | .sequence steps _ => (lengths steps).sum
  | .group steps options => longest (Walk.delayOf options) (lengths steps)
  | .animate (.fixed timings) _ => timings.delay + timings.duration
  | _ => 0

/-- How long each of several trees takes. -/
def lengths : List (Animation ℚ) → List ℚ
  | [] => []
  | step :: steps => step.length :: lengths steps

end

theorem lengths_eq_map (steps : List (Animation ℚ)) : lengths steps = steps.map Animation.length := by
  induction steps with
  | nil => rfl
  | cons step steps ih => rw [lengths, ih, List.map_cons]

theorem longest_nonneg {delay : ℚ} {lengths : List ℚ} (h : ∀ length ∈ lengths, 0 ≤ length) :
    0 ≤ longest delay lengths := by
  unfold longest
  cases hmax : lengths.max? with
  | none => exact le_rfl
  | some length => exact add_nonneg (le_max_right _ _) (h length (List.max?_mem hmax))

/-- Nothing takes less than no time. -/
theorem Animation.Composed.length_nonneg {tree : Animation ℚ} (h : tree.Composed) :
    0 ≤ tree.length := by
  induction h with
  | @sequence steps _ ih =>
    rw [Animation.length, lengths_eq_map]
    exact List.sum_nonneg (by simpa using ih)
  | @group steps options _ ih =>
    rw [Animation.length, lengths_eq_map]
    exact longest_nonneg (by simpa using ih)
  | animate target hduration hdelay => exact add_nonneg hdelay hduration

/-- The latest end of things that begin together, counted from an earlier time. -/
theorem foldl_max_lengths (now delay furthest : ℚ) (lengths : List ℚ) :
    lengths.foldl (fun latest length => max latest (now + delay + length)) (now + furthest) =
      now + lengths.max?.elim furthest fun length => max furthest (delay + length) := by
  -- on the lengths, the latest end so far being arbitrary
  induction lengths generalizing furthest with
  | nil => rfl
  | cons length lengths ih =>
    -- ends are compared as the times after `now` are
    have hstep : max (now + furthest) (now + delay + length) = now + max furthest (delay + length) := by
      rw [add_assoc, max_add_add_left]
    rw [List.foldl_cons, hstep, ih, List.max?_cons]
    cases lengths.max? with
    | none => rfl
    | some other =>
      show now + max (max furthest (delay + length)) (delay + other) =
        now + max furthest (delay + max length other)
      rw [max_assoc, max_add_add_left]

/-! ### Elementary steps -/

namespace Walk

variable {w : Walk ℚ}

/-- What is done to the styles takes no time. -/
theorem currentTime_edit {f : Scene ℚ → Scene ℚ}
    (hf : ∀ s, (f s).timeline.skeleton = s.timeline.skeleton) (w : Walk ℚ) :
    (w.edit f).currentTime = w.currentTime :=
  Timeline.currentTime_eq_of_skeleton_eq (Score.timeline_edit_induct
    (P := fun t => t.skeleton = w.timeline.skeleton) (fun he => (hf _).trans he) rfl)

theorem currentTime_advance (hv : w.Valid) (time : ℚ) :
    (w.advance time).currentTime = w.currentTime + time := by
  have hmove : (w.advance time).timeline =
      ((w.score.scene w.scope.timeline).forwardTo (w.timeline.duration + time)).timeline :=
    Score.timeline_edit_self _ hv.timeline
  rw [currentTime, hmove, Scene.currentTime_forwardTo]
  exact (add_assoc _ _ _).symm

/-- Going on at a time that is not before the clock. -/
theorem currentTime_renew_of_le {time : ℚ} (hnow : 0 ≤ w.currentTime) (hle : w.currentTime ≤ time) :
    (w.renew (some time)).currentTime = time := by
  rw [currentTime_renew]
  exact forkTime_of_le hnow hle

/-- In an animated step a style does not wait for the next frame. -/
theorem currentTime_style (step : StyleStep ℚ) (h : w.scope.timings.isNone = false) :
    (w.style step).currentTime = w.currentTime := by
  -- inside an animated step there are timings, so the style is written at once
  simp only [style, h, Bool.false_and, Bool.false_eq_true, if_false]
  split
  · exact currentTime_edit (fun s => Scene.skeleton_setEmptyStep s _) w
  · exact currentTime_edit (fun s => Scene.skeleton_setStyles s step.entries _ _) w

theorem currentTime_keyframes (hv : w.Valid) (hnow : 0 ≤ w.currentTime) {timings : Timings ℚ}
    (ht : w.scope.timings = some timings) (hduration : 0 ≤ timings.duration)
    (steps : List (StyleStep ℚ)) :
    (w.keyframes steps).currentTime = w.currentTime + timings.duration := by
  let inner := (w.openKeyframes timings).playKeyframes timings.duration
    (steps.zip (resolvedOffsets steps))
  have hinner : Effect (w.enter none w.scope.element) inner :=
    (Effect.change _ (.ease timings.easing)).trans (Effect.compositional.playKeyframes _ _ _)
  -- the keyframes run on a timeline of their own, so the clock of the scope has not moved yet
  have hspared : Spared w (leave w.scope inner) := spared_leave hv rfl rfl hinner
  have hgathered : ((leave w.scope inner).gather [inner.scope.timeline]).currentTime =
      w.currentTime :=
    (currentTime_gather _ _).trans hspared.currentTime_eq
  rw [keyframes_eq ht]
  apply currentTime_renew_of_le
  · rw [hgathered]
    exact hnow
  · rw [hgathered]
    exact le_add_of_nonneg_right hduration

/-! ### Animated steps -/

theorem currentTime_openAnimate (hv : w.Valid) {timings : Timings ℚ} (hdelay : 0 ≤ timings.delay) :
    (w.openAnimate timings).currentTime = w.currentTime + timings.delay := by
  simp only [openAnimate]
  split
  · rw [currentTime_edit Scene.skeleton_snapshot]
    exact currentTime_advance (hv.of_eq rfl rfl rfl) _
  · -- there is nothing to wait for
    rename_i hzero
    rw [le_antisymm (not_lt.1 hzero) hdelay, add_zero]
    rfl

theorem currentTime_moveTo (hv : w.Valid) (hnow : 0 ≤ w.currentTime) {timings : Timings ℚ}
    (ht : w.scope.timings = some timings) (hduration : 0 ≤ timings.duration) (target : Target ℚ) :
    (w.moveTo timings.duration target).currentTime = w.currentTime + timings.duration := by
  -- keyframes take the duration on their own timeline, a style after the clock has moved
  cases target with
  | keyframes steps => exact currentTime_keyframes hv hnow ht hduration steps
  | style step =>
    have hinside : (w.advance timings.duration).scope.timings.isNone = false := by
      show w.scope.timings.isNone = false
      rw [ht]
      rfl
    show (((w.advance timings.duration).style step).edit Scene.flush).currentTime = _
    rw [currentTime_edit Scene.skeleton_flush, currentTime_style step hinside,
      currentTime_advance hv]

theorem currentTime_animate (hv : w.Valid) (hnow : 0 ≤ w.currentTime) {timings : Timings ℚ}
    (hduration : 0 ≤ timings.duration) (hdelay : 0 ≤ timings.delay) (target : Target ℚ) :
    (w.animate (.fixed timings) target).currentTime =
      w.currentTime + (timings.delay + timings.duration) := by
  have hopen := currentTime_openAnimate hv hdelay
  have hvalid := (Effect.compositional.openAnimate timings w).valid hv
  have hafter : 0 ≤ (w.openAnimate timings).currentTime := by
    rw [hopen]
    exact add_nonneg hnow hdelay
  show ((w.openAnimate timings).moveTo timings.duration target).currentTime = _
  rw [currentTime_moveTo hvalid hafter (timings_openAnimate timings w) hduration, hopen, add_assoc]

end Walk

/-! ### Nodes -/

/-- Wherever a tree is compiled, it moves the clock by a given time. -/
def Animation.Takes (setting : Setting ℚ) (tree : Animation ℚ) (time : ℚ) : Prop :=
  ∀ w : Walk ℚ, w.Valid → 0 ≤ w.currentTime →
    (tree.body setting w).currentTime = w.currentTime + time

namespace Walk

variable {setting : Setting ℚ} {steps : List (Animation ℚ)} {w : Walk ℚ}

section

variable (htakes : ∀ step ∈ steps, step.Takes setting step.length)
  (hnonneg : ∀ step ∈ steps, 0 ≤ step.length)

include htakes hnonneg

/-- Steps one after another take the sum of their times. -/
theorem currentTime_follow (hv : w.Valid) (hnow : 0 ≤ w.currentTime) :
    (w.follow (bodies setting steps)).currentTime = w.currentTime + (lengths steps).sum := by
  induction steps generalizing w with
  | nil => exact (add_zero _).symm
  | cons step steps ih =>
    rw [List.forall_mem_cons] at htakes hnonneg
    have hstep := htakes.1 w hv hnow
    -- the steps after this one do not begin before zero either
    have hafter : 0 ≤ (step.body setting w).currentTime := by
      rw [hstep]
      exact add_nonneg hnow hnonneg.1
    have hrest := ih htakes.2 hnonneg.2 ((step.effect setting w).valid hv) hafter
    rw [hstep, add_assoc] at hrest
    rw [lengths, List.sum_cons]
    exact hrest

theorem currentTime_steps (hv : w.Valid) (hnow : 0 ≤ w.currentTime) (forks : Nat) :
    (w.steps forks (bodies setting steps)).currentTime = w.currentTime + (lengths steps).sum := by
  have hfollow := currentTime_follow htakes hnonneg hv hnow
  have hflush := currentTime_edit Scene.skeleton_flush (w.follow (bodies setting steps))
  simp only [Walk.steps]
  split
  · rename_i hempty
    -- there are no steps
    cases steps with
    | nil => exact hfollow
    | cons step steps => cases hempty
  · split
    · exact (currentTime_renew none _).trans (hflush.trans hfollow)
    · exact hflush.trans hfollow

omit hnonneg in
/-- The branches of a group all begin where its clock stands, after the delay. -/
theorem furthest_branches (hv : w.Valid) (hnow : 0 ≤ w.currentTime)
    (options : Option (Options ℚ)) (furthest : ℚ) :
    (branches options (bodies setting steps) furthest w).2.1 =
      (lengths steps).foldl
        (fun latest length => max latest (w.currentTime + max 0 (delayOf options) + length))
        furthest := by
  induction steps generalizing furthest w with
  | nil => rfl
  | cons step steps ih =>
    rw [List.forall_mem_cons] at htakes
    have hopen : (w.openBranch options).currentTime = w.currentTime + max 0 (delayOf options) :=
      ((begins_enter options w.scope.element w).delay_max (delayOf options)).currentTime_eq
    have hopened := Effect.compositional.delay (delayOf options) (w.enter options w.scope.element)
    have hafter : 0 ≤ (w.openBranch options).currentTime := by
      rw [hopen]
      exact add_nonneg hnow (le_max_left _ _)
    have hstep := htakes.1 (w.openBranch options) (hopened.valid (hv.enter options _)) hafter
    rw [hopen] at hstep
    -- the next branch begins where this one did
    have hspared : Spared w (w.branch options (step.body setting) furthest).1 :=
      spared_leave hv rfl rfl (hopened.trans (step.effect setting _))
    have hback : (w.branch options (step.body setting) furthest).1.currentTime = w.currentTime :=
      hspared.currentTime_eq
    have hvalid : (w.branch options (step.body setting) furthest).1.Valid :=
      (Effect.compositional.branch (step.effect setting) options furthest w).valid hv
    have hrest := ih htakes.2 hvalid (hback.symm ▸ hnow)
      (w.branch options (step.body setting) furthest).2.1
    rw [hback] at hrest
    have hend : (w.branch options (step.body setting) furthest).2.1 =
        max furthest (w.currentTime + max 0 (delayOf options) + step.length) := by
      rw [← hstep]
      exact later_eq_max _ _
    refine hrest.trans ?_
    rw [hend, lengths, List.foldl_cons]

/-- A group goes on when its longest branch is over. -/
theorem currentTime_group (hv : w.Valid) (hnow : 0 ≤ w.currentTime)
    (options : Option (Options ℚ)) :
    (w.group (bodies setting steps) options).currentTime =
      w.currentTime + longest (delayOf options) (lengths steps) := by
  have hlengths : ∀ length ∈ lengths steps, 0 ≤ length := by
    rw [lengths_eq_map]
    simpa using hnonneg
  have hfurthest : (branches options (bodies setting steps) w.currentTime w).2.1 =
      w.currentTime + longest (delayOf options) (lengths steps) := by
    have hfold := foldl_max_lengths w.currentTime (max 0 (delayOf options)) 0 (lengths steps)
    rw [add_zero] at hfold
    rw [furthest_branches htakes hv hnow options, hfold, longest]
    cases hmax : (lengths steps).max? with
    | none => rfl
    | some length =>
      have hlength := hlengths length (List.max?_mem hmax)
      -- the latest end is not before the clock, from which the fold has started
      show w.currentTime + max 0 (max 0 (delayOf options) + length) = _
      rw [max_eq_right (add_nonneg (le_max_left _ _) hlength), max_comm 0]
      rfl
  have hbodies : ∀ b ∈ bodies setting steps, ∀ w, Effect w (b w) := effect_of_mem_bodies
  -- the branches leave the clock of the group alone; it goes on at the end of the longest one
  obtain ⟨hspared, -⟩ := spared_branches hbodies options w.currentTime hv
  have hgathered := (currentTime_gather
    (branches options (bodies setting steps) w.currentTime w).2.2 _).trans
      hspared.currentTime_eq
  rw [← hfurthest]
  apply currentTime_renew_of_le
  · rw [hgathered]
    exact hnow
  · rw [hgathered, hfurthest]
    exact le_add_of_nonneg_right (longest_nonneg hlengths)

end

end Walk

/-! ### Trees -/

theorem Animation.Composed.takes {tree : Animation ℚ} (h : tree.Composed) (setting : Setting ℚ) :
    tree.Takes setting tree.length := by
  -- on how the tree is composed
  induction h with
  | sequence hsteps ih =>
    intro w hv hnow
    exact Walk.currentTime_steps ih (fun step hstep => (hsteps step hstep).length_nonneg) hv hnow _
  | group options hsteps ih =>
    intro w hv hnow
    exact Walk.currentTime_group ih (fun step hstep => (hsteps step hstep).length_nonneg) hv hnow
      options
  | animate target hduration hdelay =>
    intro w hv hnow
    exact Walk.currentTime_animate hv hnow hduration hdelay target

/-- **Durations compose**: compiling a composed tree moves the clock by the length of the tree,
wherever the clock stands. -/
theorem currentTime_of_composed {tree : Animation ℚ} (h : tree.Composed) (setting : Setting ℚ)
    {w : Walk ℚ} (hv : w.Valid) (hnow : 0 ≤ w.currentTime) :
    (tree.body setting w).currentTime = w.currentTime + tree.length :=
  h.takes setting w hv hnow

/-- A step, then keyframes beside two shorter steps after a delay, then nothing. -/
def inStages : Animation ℚ :=
  .sequence
    [.animateAll (.fixed ⟨100, 10, none⟩),
      .group
        [.animate (.fixed ⟨200, 0, none⟩)
            (.keyframes [.atOffset 0 [("a", .number 0)], .atOffset 1 [("a", .number 1)]]),
          .sequence [.animateAll (.ofDuration 30), .animateAll (.ofDuration 40)] none]
        (some (Options.none.withDelay (.number 50))),
      .group [] none]
    none

/-- The stages take 110 and 250 milliseconds. -/
theorem currentTime_of_composed_stages :
    let setting := (Setup.standard : Setup ℚ).setting (fun _ _ _ => []) ∅
    let w := Walk.start ⟨1⟩ .standard []
    inStages.Composed ∧ w.Valid ∧ 0 ≤ w.currentTime ∧
      (inStages.body setting w).currentTime = w.currentTime + 360 := by
  intro setting w
  have hstep : ∀ {timings : Timings ℚ}, 0 ≤ timings.duration → 0 ≤ timings.delay →
      (Animation.animateAll (.fixed timings)).Composed := .animate _
  have hpair : (Animation.sequence
      [.animateAll (.ofDuration 30), .animateAll (.ofDuration 40)] none).Composed := by
    refine .sequence ?_
    rw [List.forall_mem_cons, List.forall_mem_singleton]
    exact ⟨hstep (by decide +kernel) le_rfl, hstep (by decide +kernel) le_rfl⟩
  have hcomposed : inStages.Composed := by
    refine .sequence ?_
    rw [List.forall_mem_cons, List.forall_mem_cons, List.forall_mem_singleton]
    refine ⟨hstep (by decide +kernel) (by decide +kernel), .group _ ?_, .group _ (by simp)⟩
    rw [List.forall_mem_cons, List.forall_mem_singleton]
    exact ⟨.animate _ (by decide +kernel) le_rfl, hpair⟩
  have hvalid : w.Valid := Walk.valid_start _ _ _
  have hnow : 0 ≤ w.currentTime := by decide +kernel
  have hlength : inStages.length = 360 := by decide +kernel
  refine ⟨hcomposed, hvalid, hnow, ?_⟩
  rw [← hlength]
  exact currentTime_of_composed hcomposed setting hvalid hnow

end Choreography
