/-
Choreography/Proofs/Correspondence/Nodes.lean

Nodes in two runs side by side.

Every node that reads and writes no more than what the two runs have in common keeps walks
corresponding (`Correspondence.Allows`).  A style may write any property, if all properties
are common, and else only those that are; queries and staggers take everything to be in
common, for they look at other elements and at the place among the matches.  Where times are
moved, fixed durations must not be negative, and a query must not have a delay: it looks
whether the clock still stands at zero.

Main result: `Animation.tandem`.
-/
import Choreography.Proofs.Correspondence.Walk
import Choreography.Proofs.Run

namespace Choreography

variable {τ : Type} [Quantity τ]

/-! ### What is allowed -/

/-- A style that writes and reads no more than what is concerned. -/
def Extent.Applies (x : Extent) (step : StyleStep τ) : Prop :=
  x.Writes step.entries ∧ (step.entries = [] → x.Exact)

/-- A node that does the same in both runs. -/
def Correspondence.Allows (c : Correspondence τ) : Animation τ → Prop
  | .animate timing (.style step) =>
    (∀ t, timing = .fixed t → c.translation.forth t.duration) ∧ c.extent.Applies step
  | .animate timing (.keyframes steps) =>
    (∀ t, timing = .fixed t → c.translation.forth t.duration) ∧
      ∀ step ∈ steps, c.extent.Writes step.entries
  | .keyframes steps => ∀ step ∈ steps, c.extent.Writes step.entries
  | .style step => c.extent.Applies step
  | .query _ _ options =>
    c.extent.Whole ∧ (c.translation.still ∨ (Walk.delayOf options != 0) = false)
  | .stagger .. => c.extent.Whole
  | _ => True

omit [Quantity τ] in
theorem Extent.Applies.of_exact {x : Extent} (h : x.Exact) (step : StyleStep τ) : x.Applies step :=
  ⟨.inl h, fun _ => h⟩

/-- It is enough to look at the styles of a node one by one. -/
theorem Correspondence.allows_of_applies {c : Correspondence τ} {node : Animation τ}
    (hfixed : ∀ t target, node = .animate (.fixed t) target → c.translation.forth t.duration)
    (happlies : ∀ step ∈ node.styleSteps, c.extent.Applies step)
    (hquery : ∀ q animation options, node = .query q animation options →
      c.extent.Whole ∧ (c.translation.still ∨ (Walk.delayOf options != 0) = false))
    (hstagger : ∀ timing animation, node = .stagger timing animation → c.extent.Whole) :
    c.Allows node := by
  -- by kind of node: the other kinds read and write nothing themselves
  cases node with
  | animate timing target =>
    have hforth : ∀ t, timing = .fixed t → c.translation.forth t.duration := by
      rintro t rfl
      exact hfixed t target rfl
    cases target with
    | style step => exact ⟨hforth, happlies step List.mem_cons_self⟩
    | keyframes steps => exact ⟨hforth, fun step hstep => (happlies step hstep).1⟩
  | keyframes steps => exact fun step hstep => (happlies step hstep).1
  | style step => exact happlies step List.mem_cons_self
  | query q animation options => exact hquery q animation options rfl
  | stagger timing animation => exact hstagger timing animation rfl
  | _ => trivial

/-- Delegated instructions that can be placed in both runs: where times are moved, a delay
must not be folded into the keyframes. -/
def Correspondence.Places (c : Correspondence τ) (setting : Setting τ) : Prop :=
  ∀ e, ∀ i ∈ setting.delegated.instructions e, c.translation.still ∨ i.stretchStart = false

/-- A body that keeps walks corresponding. -/
def Correspondence.Carries (c : Correspondence τ) (body : Body τ) : Prop :=
  ∀ w u, Walk.Tandem c w u (body w) (body u)

theorem Correspondence.Carries.effect {c : Correspondence τ} {body : Body τ} (h : c.Carries body)
    (w : Walk τ) : Walk.Effect w (body w) :=
  (h w w).effect

namespace Walk

variable {c : Correspondence τ} {w u : Walk τ}

/-! ### Timings and styles -/

theorem Corresponds.readTiming_eq (h : w.Corresponds c u) (timing : Timing τ)
    (allowNegative : Bool) :
    (u.readTiming timing allowNegative).1 = (w.readTiming timing allowNegative).1 :=
  readTiming_congr h.params timing allowNegative

theorem tandem_readTiming (timing : Timing τ) (allowNegative : Bool) (w u : Walk τ) :
    Tandem c w u (w.readTiming timing allowNegative).2 (u.readTiming timing allowNegative).2 := by
  refine .assuming (Effect.compositional.readTiming timing allowNegative w) fun h _ => ?_
  cases timing with
  | fixed t => exact .refl c w u
  | expression text =>
    simp only [readTiming, h.params]
    exact tandem_report _ w u

/-- The durations of a step do not turn back the clock. -/
theorem forth_readTiming {timing : Timing τ}
    (hfixed : ∀ t, timing = .fixed t → c.translation.forth t.duration) (w : Walk τ)
    (hclean : c.translation.still ∨ (w.readTiming timing false).2.diagnostics = []) :
    c.translation.forth (w.readTiming timing false).1.duration := by
  cases timing with
  | fixed t => exact hfixed t rfl
  | expression text =>
    simp only [readTiming, report, List.append_eq_nil_iff] at hclean ⊢
    exact c.translation.forth_read _ (hclean.imp_right fun h => h.2.2)

/-- A style does the same to both walks, or waits for the next frame in both. -/
theorem tandem_style {step : StyleStep τ} (hstep : c.extent.Applies step) (w u : Walk τ) :
    Tandem c w u (w.style step) (u.style step) := by
  refine .assuming (Effect.compositional.style step w) fun h _ => ?_
  -- a bare style may have to wait for the next frame
  have hcurrent : u.timeline.hasCurrentStyles = w.timeline.hasCurrentStyles := by
    rw [h.timeline_eq]
    rfl
  have hframe : Tandem c w u
      (if w.scope.timings.isNone && w.timeline.hasCurrentStyles then
        w.edit (Scene.onTimeline Timeline.forwardFrame) else w)
      (if u.scope.timings.isNone && u.timeline.hasCurrentStyles then
        u.edit (Scene.onTimeline Timeline.forwardFrame) else u) := by
    rw [h.timings, hcurrent]
    split
    · refine tandem_edit (.change w .nextFrame) Scene.carried_nextFrame (fun s => ?_) u
      show c.translation.ahead _
        ({ s.timeline with duration := _ } : Timeline τ).loadKeyframe.currentTime
      rw [Timeline.currentTime, Timeline.currentTime, Timeline.start_loadKeyframe,
        Timeline.duration_loadKeyframe]
      exact c.translation.ahead_add_add _ _ c.translation.forth_frame
    · exact .refl c w u
  have hwrite : ∀ (easing : Option String) (w u : Walk τ), Tandem c w u
      (if step.entries.isEmpty then w.edit (Scene.setEmptyStep easing)
        else w.writeAt w.scope.timeline step.entries easing)
      (if step.entries.isEmpty then u.edit (Scene.setEmptyStep easing)
        else u.writeAt u.scope.timeline step.entries easing) := by
    intro easing w u
    split
    · rename_i hempty
      exact tandem_edit_of_skeleton_eq (.change w (.emptyStep easing))
        (Scene.carried_setEmptyStep (hstep.2 (List.isEmpty_iff.1 hempty)) easing)
        (fun s => s.skeleton_setEmptyStep easing) u
    · exact tandem_writeAt hstep.1 easing w u
  -- after the frame both walks still have the same timings, and so the same easing
  refine (hframe.trans (.assuming (hwrite _ _ u).effect fun h₁ _ => ?_)).trans
    (tandem_after .style _ _)
  rw [h₁.timings]
  exact hwrite _ _ _

/-! ### Keyframes -/

/-- A keyframe moves both clocks, writes on both timelines and flushes them. -/
theorem Corresponds.keyframe (h : w.Corresponds c u) (duration : τ) {step : StyleStep τ}
    (hstep : c.extent.Writes step.entries) (offset : τ) :
    (w.keyframe w.scope.timeline duration step offset).Corresponds c
      (u.keyframe u.scope.timeline duration step offset) := by
  have hmove := h.edit
    (Scene.carried_forwardTo (fun _ => offset * duration) (fun _ => rfl) h.scene)
    ((Effect.change w (.moveTo (offset * duration))).valid h.valid)
  have hwrite := hmove.writeAt hstep step.easing
  exact hwrite.edit (Scene.carried_flush hwrite.scene)
    ((Effect.change _ .flush).valid hwrite.valid)

theorem Corresponds.playKeyframes (h : w.Corresponds c u) (duration : τ)
    {steps : List (StyleStep τ × τ)} (hsteps : ∀ step ∈ steps, c.extent.Writes step.1.entries) :
    (w.playKeyframes duration steps).Corresponds c (u.playKeyframes duration steps) := by
  induction steps generalizing w u with
  | nil => exact h
  | cons step steps ih =>
    rw [List.forall_mem_cons] at hsteps
    exact ih (h.keyframe duration hsteps.1 step.2) hsteps.2

/-- Keyframes are played in a scope of their own, and merged into the one around. -/
theorem tandem_keyframes {steps : List (StyleStep τ)}
    (hsteps : ∀ step ∈ steps, c.extent.Writes step.entries) (w u : Walk τ) :
    Tandem c w u (w.keyframes steps) (u.keyframes steps) := by
  refine .assuming (Effect.compositional.keyframes steps w) fun h _ => ?_
  cases ht : w.scope.timings with
  | none =>
    simp only [keyframes, h.timings, ht]
    exact tandem_report _ w u
  | some timings =>
    rw [keyframes_eq ht, keyframes_eq (h.timings.trans ht)]
    -- the keyframes, in a scope of their own
    let inner := (w.openKeyframes timings).playKeyframes timings.duration
      (steps.zip (resolvedOffsets steps))
    let inner' := (u.openKeyframes timings).playKeyframes timings.duration
      (steps.zip (resolvedOffsets steps))
    have hplay : Effect (w.enter none w.scope.element) inner :=
      (Effect.change _ (.ease timings.easing)).trans (Effect.compositional.playKeyframes _ _ _)
    -- outside of that scope nothing has happened so far
    have hleave : Effect w (leave w.scope inner) := .leave rfl rfl rfl hplay
    have henter := h.enter none h.covers
    have hopen := henter.edit (Scene.carried_ease timings.easing henter.scene)
      ((Effect.change _ (.ease timings.easing)).valid henter.valid)
    have hinner : inner.Corresponds c inner' := by
      have hwrites : ∀ step ∈ steps.zip (resolvedOffsets steps), c.extent.Writes step.1.entries :=
        fun step hstep => hsteps _ (List.of_mem_zip hstep).1
      have hplayed := hopen.playKeyframes timings.duration hwrites
      rw [show inner' = _ from congrArg (fun element => (((u.enter none element).edit
        (Scene.onTimeline ({ · with easing := timings.easing }))).playKeyframes timings.duration
          (steps.zip (resolvedOffsets steps)))) h.element]
      exact hplayed
    have hscope : Tandem c w u (leave w.scope inner) (leave u.scope inner') :=
      .of_currentTime_eq hleave (fun hv => (spared_leave hv rfl rfl hplay).currentTime_eq)
        fun h => h.leave hinner (hleave.valid h.valid)
    -- the timeline of the keyframes is a counterpart, so the same is merged
    have hgather : Tandem c (leave w.scope inner) (leave u.scope inner')
        ((leave w.scope inner).gather [inner.scope.timeline])
        ((leave u.scope inner').gather [inner'.scope.timeline]) := by
      refine .of_currentTime_eq (Effect.compositional.gather _ _)
        (fun _ => currentTime_gather _ _) fun h => ?_
      rw [hinner.line]
      refine h.gather fun id hid => ?_
      rw [List.mem_singleton.1 hid]
      exact ⟨hinner.since, hinner.valid.timeline⟩
    -- both go on when the keyframes are over
    refine ((hscope.trans hgather).renew_some (fun h _ _ => ⟨?_, ?_⟩) fun h _ _ => ?_).trans
      (tandem_after .keyframes _ _)
    · rw [currentTime_gather]
      exact (spared_leave h.valid rfl rfl hplay).currentTime_eq
    · exact c.translation.ahead_add _ (h.forth timings ht)
    · rw [c.translation.time_add, h.currentTime_eq]

/-! ### Animated steps -/

theorem tandem_openAnimate {timings : Timings τ} (hforth : c.translation.forth timings.duration)
    (w u : Walk τ) : Tandem c w u (w.openAnimate timings) (u.openAnimate timings) := by
  refine (tandem_withTimings (some timings) ?_ w u).trans ?_
  · rintro t ht
    cases ht
    exact hforth
  · simp only [openAnimate]
    split
    · rename_i hpos
      exact (tandem_advance (c.translation.forth_of_pos hpos) _ _).trans (tandem_snapshot _ _)
    · exact .refl c _ _

/-- An animated step reads its timing, plays its target and drops the timing again. -/
theorem tandem_animate {timing : Timing τ} {target : Target τ}
    (h : c.Allows (.animate timing target)) (w u : Walk τ) :
    Tandem c w u (w.animate timing target) (u.animate timing target) := by
  have hfixed : ∀ t, timing = .fixed t → c.translation.forth t.duration := by
    cases target <;> exact h.1
  let timings := (w.readTiming timing false).1
  -- what follows when the timings have been read
  have hrest : ∀ v : Walk τ, Effect v
      ((((v.openAnimate timings).moveTo timings.duration target).withTimings none).after
        .animate) := fun v =>
    (((Effect.compositional.openAnimate _ _).trans (Effect.compositional.moveTo _ _ _)).trans
      (Effect.compositional.withTimings none _)).trans (Effect.compositional.after .animate _)
  refine .assuming (Effect.compositional.animate timing target w) fun hw hclean => ?_
  have hforth : c.translation.forth timings.duration :=
    forth_readTiming hfixed w (still_or_clean (hrest _) hclean)
  have hmove : ∀ v v' : Walk τ, Tandem c v v' (v.moveTo timings.duration target)
      (v'.moveTo timings.duration target) := by
    intro v v'
    cases target with
    | style step =>
      exact ((tandem_advance hforth v v').trans (tandem_style h.2 _ _)).trans (tandem_flush _ _)
    | keyframes steps => exact tandem_keyframes h.2 v v'
  have hnone : ∀ t, (none : Option (Timings τ)) = some t → c.translation.forth t.duration :=
    fun t ht => by cases ht
  unfold animate
  dsimp only
  -- from here on both runs have the same timings
  rw [hw.readTiming_eq]
  exact ((((tandem_readTiming timing false w u).trans (tandem_openAnimate hforth _ _)).trans
    (hmove _ _)).trans (tandem_withTimings none hnone _ _)).trans (tandem_after .animate _ _)

/-! ### Sequences -/

section Bodies

variable {body : Body τ} {bodies : List (Body τ)}

theorem tandem_follow (hb : ∀ b ∈ bodies, c.Carries b) (w u : Walk τ) :
    Tandem c w u (w.follow bodies) (u.follow bodies) := by
  induction bodies generalizing w u with
  | nil => exact .refl c w u
  | cons body bodies ih =>
    rw [List.forall_mem_cons] at hb
    exact (hb.1 w u).trans (ih hb.2 _ _)

theorem tandem_steps (forks : Nat) (hb : ∀ b ∈ bodies, c.Carries b) (w u : Walk τ) :
    Tandem c w u (w.steps forks bodies) (u.steps forks bodies) := by
  unfold steps
  split
  · exact .refl c w u
  · have hrun := (tandem_follow hb w u).trans (tandem_flush _ _)
    have hrenew : ∀ v : Walk τ, Effect v (if forks < v.scope.forks then v.renew none else v) := by
      intro v
      split
      · exact effect_renew none v
      · exact .refl v
    refine hrun.trans (.assuming (hrenew _) fun h _ => ?_)
    -- the number of scopes that were entered is the same
    have hforks : (((u.follow bodies).edit Scene.flush).scope.forks) =
        ((w.follow bodies).edit Scene.flush).scope.forks := h.forks
    unfold follow at hforks
    dsimp only
    rw [hforks]
    split
    · exact tandem_renew_none _ _
    · exact .refl c _ _

/-- A sequence has a scope of its own in both runs or in neither. -/
theorem tandem_sequence (hb : ∀ b ∈ bodies, c.Carries b) (options : Option (Options τ))
    (w u : Walk τ) : Tandem c w u (w.sequence bodies options) (u.sequence bodies options) := by
  refine .assuming (Effect.compositional.sequence (fun b hb' => (hb b hb').effect) options w)
    fun h _ => Tandem.trans ?_ (tandem_after .sequence _ _)
  rw [h.forks]
  simp only [openSequence]
  cases scoping options with
  | none => exact tandem_steps _ hb w u
  | some o =>
    have hinner := ((tandem_renew_none (c := c) (w.enter (some o) w.scope.element)
      (u.enter (some o) u.scope.element)).trans (tandem_delay (delayOf (some o)) _ _)).trans
        (tandem_steps w.scope.forks hb _ _)
    exact hinner.leave

/-! ### Groups -/

/-- The branches of a group: their timelines are counterparts, and the longest of them ends
at corresponding times. -/
structure Branches (c : Correspondence τ) (w : Walk τ) (done done' : Walk τ × τ × List TimelineId) :
    Prop where
  walk : done.1.Corresponds c done'.1
  furthest : done'.2.1 = c.translation.time done.2.1
  later : c.translation.ahead w.currentTime done.2.1
  ids : done'.2.2 = done.2.2.map c.counterpart
  since : ∀ id ∈ done.2.2,
    c.base.score.timelines.length ≤ id ∧ id < done.1.score.timelines.length

theorem Corresponds.branches (h : w.Corresponds c u) (hb : ∀ b ∈ bodies, c.Carries b)
    (options : Option (Options τ)) {furthest : τ}
    (hclean : c.translation.still ∨ (branches options bodies furthest w).1.diagnostics = [])
    (hnow : c.translation.ahead 0 w.currentTime)
    (hfurthest : c.translation.ahead w.currentTime furthest) :
    Branches c w (branches options bodies furthest w)
      (branches options bodies (c.translation.time furthest) u) := by
  -- on the branches: each is entered from walks that correspond, and left again
  induction bodies generalizing w u furthest with
  | nil => exact ⟨h, rfl, hfurthest, rfl, fun id hid => by cases hid⟩
  | cons body bodies ih =>
    rw [List.forall_mem_cons] at hb
    let inner := body (w.openBranch options)
    let inner' := body (u.openBranch options)
    have htandem : Tandem c (w.enter options w.scope.element) (u.enter options u.scope.element)
        inner inner' :=
      (tandem_delay (delayOf options) _ _).trans (hb.1 _ _)
    have hrest : Effect (Walk.leave w.scope inner)
        (Walk.branches options (body :: bodies) furthest w).1 :=
      Effect.compositional.branches (fun b hb' => (hb.2 b hb').effect) options _ _
    have hleave : Effect w (Walk.leave w.scope inner) := .leave rfl rfl rfl htandem.effect
    have hclean' : c.translation.still ∨ (Walk.leave w.scope inner).diagnostics = [] :=
      still_or_clean hrest hclean
    obtain ⟨hinner, hle⟩ := htandem.entered h h.element h.covers hclean' hnow
    have hspared := (spared_leave h.valid rfl rfl htandem.effect).currentTime_eq
    have hlater : c.translation.ahead (Walk.leave w.scope inner).currentTime
        (Quantity.later furthest inner.currentTime) := by
      rw [hspared]
      exact c.translation.ahead_trans hfurthest (c.translation.ahead_later _ _)
    obtain ⟨hwalk, htime, hahead, hids, hsince⟩ := ih (h.leave hinner (hleave.valid h.valid)) hb.2
      hclean (hspared.symm ▸ hnow) hlater
    -- the later of two times is moved to the later of the moved ones
    have hend : Quantity.later (c.translation.time furthest) inner'.currentTime =
        c.translation.time (Quantity.later furthest inner.currentTime) := by
      rw [hinner.currentTime_eq, c.translation.time_later]
    rw [← hend] at hwalk htime hids
    refine ⟨hwalk, htime, hspared ▸ hahead, ?_, ?_⟩
    · show inner'.scope.timeline :: _ = c.counterpart inner.scope.timeline :: List.map _ _
      rw [hinner.line]
      exact congrArg _ hids
    · refine List.forall_mem_cons.2 ⟨⟨hinner.since, ?_⟩, hsince⟩
      exact Nat.lt_of_lt_of_le hinner.valid.timeline hrest.length_le

/-- A group gathers counterparts, and goes on when the longest branch is over. -/
theorem tandem_group (hb : ∀ b ∈ bodies, c.Carries b) (options : Option (Options τ))
    (w u : Walk τ) : Tandem c w u (w.group bodies options) (u.group bodies options) := by
  have heffect : ∀ b ∈ bodies, ∀ w, Effect w (b w) := fun b hb' => (hb b hb').effect
  refine .assuming (Effect.compositional.group heffect options w) fun hw hclean => ?_
  let done := branches options bodies w.currentTime w
  let done' := branches options bodies u.currentTime u
  have hdone : Effect w done.1 := Effect.compositional.branches heffect options _ w
  have hgathered := Effect.compositional.gather done.2.2 done.1
  have hrest : Effect done.1 (w.group bodies options) :=
    (hgathered.trans (effect_renew _ _)).trans (Effect.compositional.after .group _)
  -- the longest branch is known once the clock is seen not to be before the zero
  have hbranches : c.translation.ahead 0 w.currentTime → Branches c w done done' := by
    intro hnow
    have := hw.branches hb options (still_or_clean hrest hclean) hnow (c.translation.ahead_refl _)
    rw [← hw.currentTime_eq] at this
    exact this
  have hspared := (spared_branches heffect options w.currentTime hw.valid).1.currentTime_eq
  have hgather : Tandem c w u (done.1.gather done.2.2) (done'.1.gather done'.2.2) := by
    refine ⟨hdone.trans hgathered, fun _ _ hnow => ?_⟩
    obtain ⟨hwalk, -, -, hids, hsince⟩ := hbranches hnow
    rw [hids, currentTime_gather, hspared]
    exact ⟨hwalk.gather hsince, c.translation.ahead_refl _⟩
  refine (hgather.renew_some (fun _ _ hnow => ⟨?_, ?_⟩) fun _ _ hnow => ?_).trans
    (tandem_after .group _ _)
  · rw [currentTime_gather, hspared]
  · exact (hbranches hnow).later
  · exact (hbranches hnow).furthest

/-! ### References and delegation -/

/-- The parameters of a reference come into force in both runs. -/
theorem tandem_reference (hb : c.Carries body) (options : Option (Options τ)) (w u : Walk τ) :
    Tandem c w u (w.reference body options) (u.reference body options) :=
  ((tandem_update true options w u).trans (hb _ _)).trans (tandem_after .reference _ _)

theorem tandem_referenceDelay (options : Option (Options τ)) (w u : Walk τ) :
    Tandem c w u (w.referenceDelay options) (u.referenceDelay options) := by
  unfold referenceDelay
  split
  · exact .refl c w u
  · split
    · exact .refl c w u
    · exact (tandem_report _ w u).trans (tandem_delay _ _ _)

/-- The use of a reference has a scope of its own, and both go on at its end. -/
theorem tandem_animateRef (hb : c.Carries body) (defaults options : Option (Options τ))
    (w u : Walk τ) :
    Tandem c w u (w.animateRef body defaults options) (u.animateRef body defaults options) := by
  refine .assuming (Effect.compositional.animateRef hb.effect defaults options w)
    fun h hclean => ?_
  let inner := (w.openUse defaults options).reference body defaults
  let inner' := (u.openUse defaults options).reference body defaults
  have htandem : Tandem c (w.enter options w.scope.element) (u.enter options u.scope.element)
      inner inner' :=
    (((tandem_renew_none _ _).trans (tandem_referenceDelay options _ _)).trans
      (tandem_referenceDelay defaults _ _)).trans (tandem_reference hb defaults _ _)
  have hrest : Effect (leave w.scope inner) (w.animateRef body defaults options) :=
    (effect_renew (some inner.currentTime) _).trans (Effect.compositional.after .animateRef _)
  have hclean' : c.translation.still ∨ (leave w.scope inner).diagnostics = [] :=
    still_or_clean hrest hclean
  refine (htandem.leave.renew_some (fun h _ hnow => ⟨?_, ?_⟩) fun h _ hnow => ?_).trans
    (tandem_after .animateRef _ _)
  · exact (spared_leave h.valid rfl rfl htandem.effect).currentTime_eq
  · exact (htandem.entered h h.element h.covers hclean' hnow).2
  · exact (htandem.entered h h.element h.covers hclean' hnow).1.currentTime_eq

end Bodies

/-- What the placing of instructions leads to. -/
structure Placed (c : Correspondence τ) (w : Walk τ) (placed placed' : τ × Walk τ) : Prop where
  walk : placed.2.Corresponds c placed'.2
  finish : placed'.1 = c.translation.time placed.1
  later : c.translation.ahead w.currentTime placed.1

theorem Corresponds.place (h : w.Corresponds c u) (hoptions : u.scope.options = w.scope.options)
    {i : Instruction τ} (hi : c.translation.still ∨ i.stretchStart = false) :
    (w.place i).2.Corresponds c (u.place i).2 ∧
      (u.place i).1 = c.translation.time (w.place i).1 := by
  have hdelay : u.currentTime + w.scope.options.delay.getD 0 + i.delay =
      c.translation.time (w.currentTime + w.scope.options.delay.getD 0 + i.delay) := by
    rw [h.currentTime_eq, c.translation.time_add, c.translation.time_add]
  unfold Walk.place
  dsimp only
  rw [hoptions, hdelay]
  constructor
  · exact h.withScore (h.score.place hi) ((Effect.compositional.place _ w).valid h.valid)
  · exact (c.translation.add_time _ _).symm

/-- Many of them are placed, and the last one ends at corresponding times. -/
theorem Corresponds.placeAll (h : w.Corresponds c u)
    (hoptions : u.scope.options = w.scope.options) {instructions : List (Instruction τ)}
    (hi : ∀ i ∈ instructions, c.translation.still ∨ i.stretchStart = false) {furthest : τ}
    (hlater : c.translation.ahead w.currentTime furthest) :
    Placed c w (placeAll instructions furthest w)
      (placeAll instructions (c.translation.time furthest) u) := by
  induction instructions generalizing w u furthest with
  | nil => exact ⟨h, rfl, hlater⟩
  | cons i is ih =>
    rw [List.forall_mem_cons] at hi
    obtain ⟨hplace, hfinish⟩ := h.place hoptions hi.1
    have hahead : c.translation.ahead w.currentTime (Quantity.later furthest (w.place i).1) :=
      c.translation.ahead_trans hlater (c.translation.ahead_later _ _)
    have hrest := ih hplace hoptions hi.2 hahead
    rw [← c.translation.time_later, ← hfinish] at hrest
    exact ⟨hrest.walk, hrest.finish, hrest.later⟩

/-- The options skip what is delegated in both runs or in neither. -/
theorem Corresponds.placeDelegated (h : w.Corresponds c u)
    (hoptions : u.scope.options = w.scope.options) {setting : Setting τ}
    (hplaces : c.Places setting) :
    Placed c w (w.placeDelegated setting) (u.placeDelegated setting) := by
  unfold Walk.placeDelegated
  rw [hoptions]
  split
  · exact ⟨h, h.currentTime_eq, c.translation.ahead_refl _⟩
  · rw [h.element, h.currentTime_eq]
    exact h.placeAll hoptions (hplaces _) (c.translation.ahead_refl _)

/-- Both runs wait for delegated animations, or need not to. -/
theorem tandem_animateChild {setting : Setting τ} (hplaces : c.Places setting)
    (options : Option (Options τ)) (w u : Walk τ) :
    Tandem c w u (w.animateChild setting options) (u.animateChild setting options) := by
  refine .assuming (Effect.compositional.animateChild setting options w) fun h _ => ?_
  unfold animateChild
  rw [h.element]
  refine Tandem.trans ?_ (tandem_after .animateChild _ _)
  split
  · -- the instructions are placed in a scope of their own
    let placed := (w.enter options w.scope.element).placeDelegated setting
    let placed' := (u.enter options w.scope.element).placeDelegated setting
    have heffect : Effect (w.enter options w.scope.element) placed.2 :=
      Effect.compositional.placeDelegated setting _
    have hleave : Effect w (leave w.scope placed.2) := .leave rfl rfl rfl heffect
    have hplaced : Placed c (w.enter options w.scope.element) placed placed' :=
      (h.enter options h.covers).placeDelegated (h.options_enter options _) hplaces
    have hspared := (spared_leave h.valid rfl rfl heffect).currentTime_eq
    have hscope : Tandem c w u (leave w.scope placed.2) (leave u.scope placed'.2) :=
      .of_currentTime_eq hleave (fun _ => hspared)
        fun h => h.leave hplaced.walk (hleave.valid h.valid)
    -- the clocks stand at the end in both runs or in neither
    have hwait : ((leave u.scope placed'.2).currentTime != placed'.1) =
        ((leave w.scope placed.2).currentTime != placed.1) := by
      rw [(h.leave hplaced.walk (hleave.valid h.valid)).currentTime_eq, hplaced.finish,
        c.translation.time_bne]
    show Tandem c w u (if (leave w.scope placed.2).currentTime != placed.1 then _ else _)
      (if (leave u.scope placed'.2).currentTime != placed'.1 then _ else _)
    rw [hwait]
    split
    · refine hscope.renew_some (fun _ _ _ => ⟨hspared, ?_⟩) fun _ _ _ => hplaced.finish
      refine c.translation.ahead_trans ?_ hplaced.later
      rw [currentTime_enter_eq]
      exact c.translation.ahead_add _ c.translation.forth_zero
    · exact hscope
  · exact .refl c w u

/-! ### Queries -/

section Query

variable {body : Body τ}

/-- Another place among the matches. -/
theorem Corresponds.reposition (h : w.Corresponds c u) {scope scope' : Scope τ}
    (hs : scope = { w.scope with
      index := scope.index, total := scope.total, staggerTime := scope.staggerTime })
    (hs' : scope' = { u.scope with
      index := scope'.index, total := scope'.total, staggerTime := scope'.staggerTime })
    (hbeside : c.extent.Whole → scope'.index = scope.index ∧ scope'.total = scope.total ∧
      scope'.staggerTime = scope.staggerTime) :
    ({ w with scope := scope } : Walk τ).Corresponds c { u with scope := scope' } := by
  rw [hs, hs']
  exact ⟨h.score, h.valid.of_eq rfl rfl rfl, h.since, h.line, h.element, h.previous, h.timings,
    h.forth, h.params, h.forks, h.diagnostics, fun hwhole => ⟨(hbeside hwhole).1,
      (hbeside hwhole).2.1, (hbeside hwhole).2.2, (h.beside hwhole).outer⟩⟩

/-- One match, in the scope that is entered for it. -/
theorem Corresponds.insideMatch (h : w.Corresponds c u) (hb : c.Carries body)
    (hwhole : c.extent.Whole) (options : Option (Options τ)) (element : ElementId) (index : Nat)
    (hclean : c.translation.still ∨ (w.insideMatch options body element index).diagnostics = [])
    (hnow : c.translation.ahead 0 w.currentTime) :
    (w.insideMatch options body element index).Corresponds c
        (u.insideMatch options body element index) ∧
      c.translation.ahead w.currentTime (w.insideMatch options body element index).currentTime := by
  -- the index is set in both scopes before the match is entered
  have hindexed : (w.indexed index).Corresponds c (u.indexed index) :=
    h.reposition rfl rfl fun hwhole =>
      ⟨rfl, (h.beside hwhole).total, (h.beside hwhole).staggerTime⟩
  have htandem : Tandem c ((w.indexed index).enter options element)
      ((u.indexed index).enter options element) (w.insideMatch options body element index)
      (u.insideMatch options body element index) :=
    ((tandem_delay (delayOf options) _ _).trans (hb _ _)).trans (tandem_flush _ _)
  exact htandem.entered hindexed rfl (Extent.covers_of_whole hwhole _) hclean hnow

/-- The matches of a query: the longest of them ends at corresponding times, and the last one
that is the element itself has started on a counterpart. -/
structure Matches (c : Correspondence τ) (w : Walk τ)
    (done done' : Walk τ × τ × Option TimelineId) : Prop where
  walk : done.1.Corresponds c done'.1
  furthest : done'.2.1 = c.translation.time done.2.1
  later : c.translation.ahead w.currentTime done.2.1
  self : done'.2.2 = done.2.2.map c.counterpart
  since : ∀ id, done.2.2 = some id →
    c.base.score.timelines.length ≤ id ∧ id < done.1.score.timelines.length

theorem Corresponds.matchesFrom (h : w.Corresponds c u) (hb : c.Carries body)
    (hwhole : c.extent.Whole) (options : Option (Options τ)) {elements : List ElementId}
    {index : Nat} {furthest : τ} {self : Option TimelineId}
    (hclean : c.translation.still ∨
      (matchesFrom options body elements index furthest self w).1.diagnostics = [])
    (hnow : c.translation.ahead 0 w.currentTime)
    (hfurthest : c.translation.ahead w.currentTime furthest)
    (hself : ∀ id, self = some id →
      c.base.score.timelines.length ≤ id ∧ id < w.score.timelines.length) :
    Matches c w (matchesFrom options body elements index furthest self w)
      (matchesFrom options body elements index (c.translation.time furthest)
        (self.map c.counterpart) u) := by
  -- as for branches, with the timeline of the element itself in addition
  induction elements generalizing w u index furthest self with
  | nil => exact ⟨h, rfl, hfurthest, rfl, hself⟩
  | cons element elements ih =>
    let inner := w.insideMatch options body element index
    let self₁ := if element = w.scope.element then some w.score.timelines.length else self
    have heffect := effect_insideMatch hb.effect options element index w
    have hleave : Effect w (Walk.leave w.scope inner) := .leave (u := w.indexed index) rfl rfl rfl
      heffect
    have hspared : (Walk.leave w.scope inner).currentTime = w.currentTime :=
      (spared_leave (u := w.indexed index) h.valid rfl rfl heffect).currentTime_eq
    rw [matchesFrom_cons] at hclean
    have hrest : Effect (Walk.leave w.scope inner) (Walk.matchesFrom options body elements
        (index + 1) (Quantity.later furthest inner.currentTime) self₁
          (Walk.leave w.scope inner)).1 :=
      Effect.compositional.matchesFrom hb.effect options elements _ _ _ _
    have hclean' : c.translation.still ∨ (Walk.leave w.scope inner).diagnostics = [] :=
      still_or_clean hrest hclean
    obtain ⟨hinner, hle⟩ := h.insideMatch hb hwhole options element index hclean' hnow
    have hlater : c.translation.ahead (Walk.leave w.scope inner).currentTime
        (Quantity.later furthest inner.currentTime) := by
      rw [hspared]
      exact c.translation.ahead_trans hfurthest (c.translation.ahead_later _ _)
    have hgrown : w.score.timelines.length < inner.score.timelines.length := by
      have hlength := heffect.length_le
      rw [enter_length] at hlength
      exact hlength
    -- a match for the element itself starts on the next timeline to come
    have hself₁ : ∀ id, self₁ = some id →
        c.base.score.timelines.length ≤ id ∧ id < inner.score.timelines.length := by
      intro id hid
      simp only [self₁] at hid
      split at hid
      · cases hid
        exact ⟨h.score.length_le, hgrown⟩
      · exact ⟨(hself id hid).1, (hself id hid).2.trans hgrown⟩
    -- which is a counterpart, for as many were entered in both runs
    have hcounterpart : (if element = u.scope.element then some u.score.timelines.length
        else self.map c.counterpart) = self₁.map c.counterpart := by
      rw [h.element, h.score.length_eq]
      show _ = (if element = w.scope.element then _ else _ : Option TimelineId).map c.counterpart
      split <;> rfl
    have hmatches := ih (h.leave hinner (hleave.valid h.valid)) hclean (hspared.symm ▸ hnow) hlater
      hself₁
    rw [matchesFrom_cons, matchesFrom_cons, hcounterpart, hinner.currentTime_eq,
      c.translation.time_later]
    exact ⟨hmatches.walk, hmatches.furthest, hspared ▸ hmatches.later, hmatches.self,
      hmatches.since⟩

/-- The styles are held in both runs, or in neither. -/
theorem tandem_holdStyles {delay : τ} (hdelay : c.translation.still ∨ (delay != 0) = false)
    (w u : Walk τ) : Tandem c w u (w.holdStyles delay) (u.holdStyles delay) := by
  refine .assuming (Effect.compositional.holdStyles delay w) fun h _ => ?_
  have hcurrent : u.timeline.hasCurrentStyles = w.timeline.hasCurrentStyles := by
    rw [h.timeline_eq]
    rfl
  have hhold : (delay != 0 && (decide (u.scope.previous = some Kind.style) ||
      (u.currentTime == 0 && u.timeline.hasCurrentStyles))) =
        (delay != 0 && (decide (w.scope.previous = some Kind.style) ||
          (w.currentTime == 0 && w.timeline.hasCurrentStyles))) := by
    -- a moved clock may pass the zero, but then there is no delay to hold styles for
    rcases hdelay with hstill | hnone
    · rw [h.previous, h.currentTime_eq, c.translation.time_of_still hstill, hcurrent]
    · rw [hnone, Bool.false_and, Bool.false_and]
  unfold holdStyles
  dsimp only
  rw [hhold]
  split
  · refine (tandem_snapshot w u).trans ?_
    refine .of_currentTime_eq (.rescope _ _ rfl rfl) (fun _ => rfl) fun h => ?_
    exact ⟨h.score, h.valid.of_eq rfl rfl rfl, h.since, h.line, h.element, rfl, h.timings, h.forth,
      h.params, h.forks, h.diagnostics, fun hwhole => ⟨(h.beside hwhole).index,
        (h.beside hwhole).total, (h.beside hwhole).staggerTime, (h.beside hwhole).outer⟩⟩
  · exact .refl c w u

/-- A query is opened with the same places to give away. -/
theorem tandem_openQuery (q : Selection) (elements : List ElementId)
    {options : Option (Options τ)}
    (hdelay : c.translation.still ∨ (delayOf options != 0) = false) (w u : Walk τ) :
    Tandem c w u (w.openQuery q elements options) (u.openQuery q elements options) := by
  unfold openQuery
  dsimp only
  refine (tandem_holdStyles hdelay w u).trans ?_
  have hreposition : ∀ v v' : Walk τ, Tandem c v v'
      { v with scope := { v.scope with total := elements.length, staggerTime := 0 } }
      { v' with scope := { v'.scope with total := elements.length, staggerTime := 0 } } :=
    fun v v' => .of_currentTime_eq (.rescope _ _ rfl rfl) (fun _ => rfl) fun h =>
      h.reposition rfl rfl fun hwhole => ⟨(h.beside hwhole).index, rfl, rfl⟩
  split
  · exact (tandem_report _ _ _).trans (hreposition _ _)
  · exact hreposition _ _

/-- Going on after the matches, whose end and whose timeline for the element itself are
counterparts. -/
theorem Tandem.closeQuery {w₁ u₁ : Walk τ} (h : Tandem c w u w₁ u₁) {furthest furthest' : τ}
    {self self' : Option TimelineId}
    (hle : w.Corresponds c u → c.translation.still ∨ w₁.diagnostics = [] →
      c.translation.ahead 0 w.currentTime → w₁.currentTime = w.currentTime ∧
        c.translation.ahead w.currentTime furthest)
    (htime : w.Corresponds c u → c.translation.still ∨ w₁.diagnostics = [] →
      c.translation.ahead 0 w.currentTime → furthest' = c.translation.time furthest)
    (hself : w.Corresponds c u → c.translation.still ∨ w₁.diagnostics = [] →
      c.translation.ahead 0 w.currentTime → self' = self.map c.counterpart ∧
        ∀ id, self = some id → c.base.score.timelines.length ≤ id ∧
          id < w₁.score.timelines.length) :
    Tandem c w u (w₁.closeQuery furthest self) (u₁.closeQuery furthest' self') := by
  have hclose := Effect.compositional.closeQuery furthest self w₁
  refine ⟨h.effect.trans hclose, fun hw hclean hnow => ?_⟩
  obtain ⟨rfl, hsince⟩ := hself hw (still_or_clean hclose hclean) hnow
  -- the scope is put back before the query goes on
  let back : Walk τ := { w₁ with scope := { w₁.scope with index := 0, total := 0 } }
  let back' : Walk τ := { u₁ with scope := { u₁.scope with index := 0, total := 0 } }
  have hback : Tandem c w u back back' :=
    h.trans (.of_currentTime_eq (.rescope _ _ rfl rfl) (fun _ => rfl) fun hw₁ =>
      hw₁.reposition rfl rfl fun hwhole => ⟨rfl, rfl, (hw₁.beside hwhole).staggerTime⟩)
  have hrenew : Tandem c w u (back.renew (some furthest)) (back'.renew (some furthest')) :=
    hback.renew_some hle htime
  cases self with
  | none => exact hrenew.keeps hw hclean hnow
  | some id =>
    -- what was written on the element itself is taken over
    obtain ⟨hge, hlt⟩ := hsince id rfl
    have hgrown : w₁.score.timelines.length ≤ (back.renew (some furthest)).score.timelines.length :=
      (effect_renew (some furthest) back).length_le
    have hmerge := hrenew.trans (.of_currentTime_eq (effect_merge id _)
      (fun _ => Timeline.currentTime_eq_of_skeleton_eq (skeleton_merge _ _ _ _))
      fun h => h.merge hge (Nat.lt_of_lt_of_le hlt hgrown))
    exact (hmerge.trans (tandem_snapshot _ _)).keeps hw hclean hnow

/-- A query makes the same matches in both runs, and ends with the longest of them. -/
theorem tandem_query (setting : Setting τ) (hb : c.Carries body) {q : Selection}
    {options : Option (Options τ)} (hwhole : c.extent.Whole)
    (hdelay : c.translation.still ∨ (delayOf options != 0) = false) (w u : Walk τ) :
    Tandem c w u (w.query setting body q options) (u.query setting body q options) := by
  refine .assuming (Effect.compositional.query setting hb.effect q options w)
    fun h hclean => ?_
  let elements := setting.select w.scope.element q
  let opened := w.openQuery q elements options
  let opened' := u.openQuery q elements options
  let done := matchesFrom options body elements 0 w.currentTime none opened
  let done' := matchesFrom options body elements 0 u.currentTime none opened'
  have hselect : setting.select u.scope.element q = elements := by
    rw [h.element]
  have hopened : Tandem c w u opened opened' := tandem_openQuery q elements hdelay w u
  have htime : opened.currentTime = w.currentTime := currentTime_openQuery q elements options w
  have hmatched : Effect opened done.1 :=
    Effect.compositional.matchesFrom hb.effect options elements 0 _ none opened
  have hclosed : Effect done.1 (done.1.closeQuery done.2.1 done.2.2) :=
    Effect.compositional.closeQuery _ _ _
  have hrest := hclosed.trans (Effect.compositional.after .query _)
  have hopenedWalk : c.translation.ahead 0 w.currentTime → opened.Corresponds c opened' :=
    fun hnow => (hopened.keeps h (still_or_clean (hmatched.trans hrest) hclean) hnow).1
  -- what the matches come to is known once the clock is seen not to be before the zero
  have hmatches : c.translation.ahead 0 w.currentTime → Matches c opened done done' := by
    intro hnow
    have hfurthest : c.translation.ahead opened.currentTime w.currentTime :=
      htime.symm ▸ c.translation.ahead_refl _
    have hnone : ∀ id, (none : Option TimelineId) = some id →
        c.base.score.timelines.length ≤ id ∧ id < opened.score.timelines.length :=
      fun id hid => by cases hid
    have hall := (hopenedWalk hnow).matchesFrom hb hwhole options (still_or_clean hrest hclean)
      (htime.symm ▸ hnow) hfurthest hnone
    rw [← h.currentTime_eq] at hall
    exact hall
  have hvalid : opened.Valid := (Effect.compositional.openQuery q elements options w).valid h.valid
  have hspared : done.1.currentTime = w.currentTime :=
    (spared_matchesFrom hb.effect options elements 0 _ none hvalid).currentTime_eq.trans htime
  -- after the matches both scopes stand where the query began
  have hwalks : Tandem c w u done.1 done'.1 := by
    refine ⟨hopened.effect.trans hmatched, fun _ _ hnow => ⟨(hmatches hnow).walk, ?_⟩⟩
    rw [hspared]
    exact c.translation.ahead_refl _
  have hclose : Tandem c w u (done.1.closeQuery done.2.1 done.2.2)
      (done'.1.closeQuery done'.2.1 done'.2.2) :=
    hwalks.closeQuery (fun _ _ hnow => ⟨hspared, htime ▸ (hmatches hnow).later⟩)
      (fun _ _ hnow => (hmatches hnow).furthest)
      fun _ _ hnow => ⟨(hmatches hnow).self, (hmatches hnow).since⟩
  unfold query
  dsimp only
  rw [hselect]
  exact hclose.trans (tandem_after .query _ _)

/-! ### Staggers -/

/-- A stagger waits alike for its share of the time, and records the same time in the end. -/
theorem tandem_stagger (hb : c.Carries body) (hwhole : c.extent.Whole) (timing : Timing τ)
    (w u : Walk τ) : Tandem c w u (w.stagger body timing) (u.stagger body timing) := by
  refine .assuming (Effect.compositional.stagger hb.effect timing w) fun h _ => ?_
  have houter := (h.beside hwhole).outer
  unfold stagger
  -- without surroundings there is nothing to stagger, and that is reported
  cases ho : w.scope.outer with
  | none =>
    rw [houter, ho]
    exact ((tandem_report _ w u).trans (hb _ _)).trans (tandem_after .stagger _ _)
  | some outer =>
    rw [houter, ho]
    dsimp only [Option.map_some]
    -- the share depends on the place among the matches and on what was recorded before
    have hopened : Tandem c w u (w.openStagger timing outer)
        (u.openStagger timing (outer.moved c.translation.time)) := by
      unfold openStagger
      dsimp only
      rw [h.readTiming_eq, scope_readTiming, scope_readTiming, (h.beside hwhole).index,
        (h.beside hwhole).total]
      exact (tandem_readTiming timing true w u).trans (tandem_delay _ _ _)
    let inner := w.openStagger timing outer
    let inner' := u.openStagger timing (outer.moved c.translation.time)
    have hbody : Tandem c inner inner' ((body inner).after .stagger)
        ((body inner').after .stagger) := (hb _ _).trans (tandem_after .stagger _ _)
    have hclose : Effect ((body inner).after .stagger) (((body inner).after .stagger).closeStagger
        w.scope.timeline inner.currentTime outer) := .rescope _ _ rfl rfl
    refine ⟨(hopened.effect.trans hbody.effect).trans hclose, fun h hclean hnow => ?_⟩
    obtain ⟨hinner, hle⟩ := hopened.keeps h
      (still_or_clean (hbody.effect.trans hclose) hclean) hnow
    obtain ⟨hdone, hle'⟩ := hbody.keeps hinner (still_or_clean hclose hclean)
      (c.translation.ahead_trans hnow hle)
    refine ⟨?_, c.translation.ahead_trans hle hle'⟩
    -- what is recorded is a difference of times
    have hlt : w.scope.timeline < (body inner).score.timelines.length :=
      Nat.lt_of_lt_of_le h.valid.timeline (hopened.effect.trans hbody.effect).length_le
    have hline : (body inner').score.timeline u.scope.timeline =
        ((body inner).score.timeline w.scope.timeline).moved c.translation.time := by
      rw [h.line]
      exact (hdone.score.timeline _ h.since hlt).1
    have htime : ((body inner').score.timeline u.scope.timeline).currentTime - inner'.currentTime +
        (((body inner').score.timeline u.scope.timeline).start -
          (outer.moved c.translation.time).start) =
        ((body inner).score.timeline w.scope.timeline).currentTime - inner.currentTime +
          (((body inner).score.timeline w.scope.timeline).start - outer.start) := by
      rw [hline, Timeline.currentTime_moved, hinner.currentTime_eq, c.translation.time_sub]
      exact congrArg (_ + ·) (c.translation.time_sub _ _)
    -- the record is the only part of the scope that the body has not settled
    refine ⟨hdone.score, hdone.valid.of_eq rfl rfl rfl, hdone.since, hdone.line, hdone.element,
      hdone.previous, hdone.timings, hdone.forth, hdone.params, hdone.forks, hdone.diagnostics,
      fun hwhole => ⟨(hdone.beside hwhole).index, (hdone.beside hwhole).total,
        (hdone.beside hwhole).staggerTime, ?_⟩⟩
    show some (Surroundings.mk (((body inner').score.timeline u.scope.timeline).currentTime -
      inner'.currentTime + (((body inner').score.timeline u.scope.timeline).start -
        (outer.moved c.translation.time).start)) _) = _
    rw [htime]
    rfl

end Query

end Walk

/-! ### Trees -/

/-- A tree all of whose nodes are allowed does the same in both runs. -/
theorem Animation.tandem {c : Correspondence τ} {setting : Setting τ} {tree : Animation τ}
    (hplaces : c.Places setting) (h : ∀ node ∈ tree.nodes, c.Allows node) :
    c.Carries (tree.body setting) := by
  -- by the lemmas above, one for each kind of node
  induction tree using Animation.induct with
  | trigger | state | transition => exact fun w u => .refl c w u
  | sequence steps options ih =>
    have hsteps := forall_mem_nodesOf.1 (List.forall_mem_cons.1 h).2
    exact Walk.tandem_sequence
      (forall_mem_bodies fun step hstep => ih step hstep (hsteps step hstep)) options
  | group steps options ih =>
    have hsteps := forall_mem_nodesOf.1 (List.forall_mem_cons.1 h).2
    exact Walk.tandem_group
      (forall_mem_bodies fun step hstep => ih step hstep (hsteps step hstep)) options
  | animate timing target => exact Walk.tandem_animate (h _ (mem_nodes_self _))
  | keyframes steps =>
    have hsteps : ∀ step ∈ steps, c.extent.Writes step.entries :=
      h (.keyframes steps) (mem_nodes_self _)
    exact Walk.tandem_keyframes hsteps
  | style step =>
    have hstep : c.extent.Applies step := h (.style step) (mem_nodes_self _)
    exact Walk.tandem_style hstep
  | reference animation options ih =>
    exact Walk.tandem_reference (ih (List.forall_mem_cons.1 h).2) options
  | animateChild options => exact Walk.tandem_animateChild hplaces options
  | animateRef animation defaults options ih =>
    exact Walk.tandem_animateRef (ih (List.forall_mem_cons.1 h).2) defaults options
  | query selection animation options ih =>
    obtain ⟨hquery, hrest⟩ := List.forall_mem_cons.1 h
    exact Walk.tandem_query setting (ih hrest) hquery.1 hquery.2
  | stagger timing animation ih =>
    obtain ⟨hstagger, hrest⟩ := List.forall_mem_cons.1 h
    exact Walk.tandem_stagger (ih hrest) hstagger timing

end Choreography
