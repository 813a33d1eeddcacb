/-
Choreography/Proofs/Compositional.lean

Relations between walks that are proved for the parts of a step only.

Every step of `Choreography.Compile.Steps` is put together from a few elementary ones:
changes of the current timeline, merges, placements, bookkeeping in the scope, going on in
a new timeline, and subtrees in scopes of their own.  A relation that holds of these and is
closed under composition (`Walk.Compositional`) therefore holds between the walks before and
after any node (`Compositional.body`), and between those before and after any part of a node.

The only things that come from outside are the instructions that are delegated.  A relation
for which it matters what is placed (`Walk.Stepwise`) holds between the walks before and after
a tree if it holds of the placements of these (`Stepwise.body`).

The only node for which this takes an argument is `keyframes`: it writes on the timeline it
has entered while the outer scope is in place, and `keyframes_eq` moves that work into the
inner scope.
-/
import Choreography.Proofs.Skeleton
import Choreography.Proofs.Tree

namespace Choreography

variable {τ : Type} [Quantity τ]

namespace Walk

/-- A relation that holds of the elementary steps that place nothing, and is closed under
composition. -/
structure Stepwise (R : Walk τ → Walk τ → Prop) : Prop where
  refl : ∀ w, R w w
  trans : ∀ {w w₁ w₂}, R w w₁ → R w₁ w₂ → R w w₂
  change : ∀ (w : Walk τ) (c : Change τ), R w (w.edit (·.change c))
  merge : ∀ (source : TimelineId) (w : Walk τ),
    R w { w with score := w.score.merge w.scope.timeline source }
  /-- What is known of a scope apart from its element and its timeline does not matter. -/
  rescope : ∀ (w : Walk τ) (scope : Scope τ), scope.element = w.scope.element →
    scope.timeline = w.scope.timeline → R w { w with scope := scope }
  report : ∀ (w : Walk τ) (reports : List Diagnostic), R w (w.report reports)
  renew : ∀ (at? : Option τ) (w : Walk τ), R w (w.renew at?)
  /-- A subtree in a scope of its own.  The outer scope may have changed in the meantime, but
  not its timeline. -/
  leave : ∀ {w u inner : Walk τ} {options : Option (Options τ)} {element : ElementId},
    u.score = w.score → u.diagnostics = w.diagnostics → u.scope.timeline = w.scope.timeline →
      R (u.enter options element) inner → R w (leave w.scope inner)

/-- A relation that holds of elementary steps and is closed under composition. -/
structure Compositional (R : Walk τ → Walk τ → Prop) : Prop extends Stepwise R where
  place : ∀ (p : Placement τ) (w : Walk τ), R w { w with score := w.score.place p }

namespace Stepwise

variable {R : Walk τ → Walk τ → Prop} (h : Stepwise R)

include h

/-! ### Bookkeeping -/

theorem after (kind : Kind) (w : Walk τ) : R w (w.after kind) :=
  h.rescope w _ rfl rfl

theorem withTimings (timings : Option (Timings τ)) (w : Walk τ) : R w (w.withTimings timings) :=
  h.rescope w _ rfl rfl

theorem update (keep : Bool) (options : Option (Options τ)) (w : Walk τ) :
    R w (w.update keep options) :=
  h.trans (h.rescope w { w.scope with options := (w.scope.options.update keep options).1 } rfl rfl)
    (h.report _ _)

theorem readTiming (timing : Timing τ) (allowNegative : Bool) (w : Walk τ) :
    R w (w.readTiming timing allowNegative).2 := by
  cases timing with
  | fixed t => exact h.refl w
  | expression text =>
    simp only [Walk.readTiming]
    exact h.report w _

/-! ### The clock and the styles -/

/-- Styles are written by a change, and what is wrong with them is reported. -/
theorem writeAt (entries : List (StyleEntry τ)) (easing : Option String) (w : Walk τ) :
    R w (w.writeAt w.scope.timeline entries easing) :=
  h.trans (h.change w (.write entries easing w.scope.options.params)) (h.report _ _)

theorem advance (time : τ) (w : Walk τ) : R w (w.advance time) :=
  h.change w (.moveTo (w.timeline.duration + time))

theorem delay (time : τ) (w : Walk τ) : R w (w.delay time) := by
  unfold Walk.delay
  split
  · exact h.change w (.delay time)
  · exact h.refl w

/-- A style is written on the timeline of the scope, maybe in the next frame. -/
theorem style (step : StyleStep τ) (w : Walk τ) : R w (w.style step) := by
  -- a bare style may have to wait for the next frame
  have hframe : ∀ w : Walk τ, R w
      (if w.scope.timings.isNone && w.timeline.hasCurrentStyles then
        w.edit (Scene.onTimeline Timeline.forwardFrame) else w) := by
    intro w
    split
    · exact h.change w .nextFrame
    · exact h.refl w
  -- without entries the step is an empty one
  have hwrite : ∀ (easing : Option String) (w : Walk τ), R w
      (if step.entries.isEmpty then w.edit (Scene.setEmptyStep easing)
        else w.writeAt w.scope.timeline step.entries easing) := by
    intro easing w
    split
    · exact h.change w (.emptyStep easing)
    · exact h.writeAt step.entries easing w
  exact h.trans (h.trans (hframe w) (hwrite _ _)) (h.after .style _)

end Stepwise

/-! ### Keyframes -/

/-- The scope that keyframes get, with the easing of their step. -/
def openKeyframes (timings : Timings τ) (w : Walk τ) : Walk τ :=
  (w.enter none w.scope.element).edit (Scene.onTimeline ({ · with easing := timings.easing }))

/-- Goes through keyframes on the timeline of the scope. -/
def playKeyframes (duration : τ) (steps : List (StyleStep τ × τ)) (w : Walk τ) : Walk τ :=
  steps.foldl (fun w step => w.keyframe w.scope.timeline duration step.1 step.2) w

/-- A keyframe reads nothing of the scope but the parameters, so it does not matter whether
the inner scope has been left before. -/
theorem keyframe_leave (scope : Scope τ) (id : TimelineId) (duration : τ) (step : StyleStep τ)
    (offset : τ) (w : Walk τ) (h : scope.options.params = w.scope.options.params) :
    (leave scope w).keyframe id duration step offset =
      leave scope (w.keyframe id duration step offset) := by
  simp only [keyframe, writeAt, editAt, report, leave, h]

theorem foldl_keyframe_leave (scope : Scope τ) (duration : τ) (steps : List (StyleStep τ × τ))
    (w : Walk τ) (h : scope.options.params = w.scope.options.params) :
    steps.foldl (fun u step => u.keyframe w.scope.timeline duration step.1 step.2)
      (leave scope w) = leave scope (w.playKeyframes duration steps) := by
  unfold playKeyframes
  induction steps generalizing w with
  | nil => rfl
  | cons step steps ih =>
    rw [List.foldl_cons, keyframe_leave scope _ duration step.1 step.2 w h]
    exact ih (w.keyframe w.scope.timeline duration step.1 step.2) h

/-- Keyframes do not touch the scope in which they are played. -/
theorem scope_playKeyframes (duration : τ) (steps : List (StyleStep τ × τ)) (w : Walk τ) :
    (w.playKeyframes duration steps).scope = w.scope := by
  unfold playKeyframes
  induction steps generalizing w with
  | nil => rfl
  | cons step steps ih => exact ih (w.keyframe w.scope.timeline duration step.1 step.2)

/-- Keyframes run in a scope of their own. -/
theorem keyframes_eq {steps : List (StyleStep τ)} {w : Walk τ} {timings : Timings τ}
    (h : w.scope.timings = some timings) :
    w.keyframes steps =
      let inner := (w.openKeyframes timings).playKeyframes timings.duration
        (steps.zip (resolvedOffsets steps))
      (((leave w.scope inner).gather [inner.scope.timeline]).renew
        (some (w.currentTime + timings.duration))).after .keyframes := by
  have hfold := foldl_keyframe_leave w.scope timings.duration
    (steps.zip (resolvedOffsets steps)) (w.openKeyframes timings) rfl
  simp only [keyframes, h]
  rw [scope_playKeyframes]
  simp only [gather, List.foldl_cons, List.foldl_nil]
  -- leaving the scope first or last makes no difference to the keyframes
  rw [← hfold]
  rfl

namespace Stepwise

variable {R : Walk τ → Walk τ → Prop} (h : Stepwise R)

include h

/-- Each keyframe sets the clock, writes its styles and is finished. -/
theorem playKeyframes (duration : τ) (steps : List (StyleStep τ × τ)) (w : Walk τ) :
    R w (w.playKeyframes duration steps) := by
  unfold Walk.playKeyframes
  induction steps generalizing w with
  | nil => exact h.refl w
  | cons step steps ih =>
    refine h.trans ?_ (ih _)
    exact h.trans (h.trans (h.change w (.moveTo (step.2 * duration)))
      (h.writeAt step.1.entries step.1.easing _)) (h.change _ .flush)

/-- Timelines are merged one after another. -/
theorem gather (ids : List TimelineId) (w : Walk τ) : R w (w.gather ids) := by
  induction ids generalizing w with
  | nil => exact h.refl w
  | cons id ids ih => exact h.trans (h.merge id w) (ih _)

/-- Keyframes run in a scope of their own, which is then left; outside of a step they are reported.
-/
theorem keyframes (steps : List (StyleStep τ)) (w : Walk τ) : R w (w.keyframes steps) := by
  cases ht : w.scope.timings with
  | none =>
    simp only [Walk.keyframes, ht]
    exact h.report w _
  | some timings =>
    rw [keyframes_eq ht]
    -- in this form they are a subtree like any other
    have hinner : R (w.enter none w.scope.element)
        ((w.openKeyframes timings).playKeyframes timings.duration
          (steps.zip (resolvedOffsets steps))) :=
      h.trans (h.change _ (.ease timings.easing)) (h.playKeyframes _ _ _)
    exact h.trans (h.trans (h.trans (h.leave rfl rfl rfl hinner) (h.gather _ _)) (h.renew _ _))
      (h.after _ _)

/-! ### Animated steps -/

theorem openAnimate (timings : Timings τ) (w : Walk τ) : R w (w.openAnimate timings) := by
  refine h.trans (h.withTimings (some timings) w) ?_
  simp only [Walk.openAnimate]
  split
  · exact h.trans (h.advance _ _) (h.change _ .snapshot)
  · exact h.refl _

/-- A target moves the clock to its end. -/
theorem moveTo (duration : τ) (target : Target τ) (w : Walk τ) :
    R w (w.moveTo duration target) := by
  cases target with
  | keyframes steps => exact h.keyframes steps w
  | style step =>
    exact h.trans (h.trans (h.advance duration w) (h.style step _)) (h.change _ .flush)

/-- An animated step reads its timing, moves to its target and drops the timing again. -/
theorem animate (timing : Timing τ) (target : Target τ) (w : Walk τ) :
    R w (w.animate timing target) :=
  h.trans (h.trans (h.trans (h.trans (h.readTiming timing false w) (h.openAnimate _ _))
    (h.moveTo _ _ _)) (h.withTimings none _)) (h.after .animate _)

/-! ### Sequences and groups -/

theorem foldl {bodies : List (Body τ)} (hb : ∀ b ∈ bodies, ∀ w, R w (b w)) (w : Walk τ) :
    R w (bodies.foldl (fun w body => body w) w) := by
  induction bodies generalizing w with
  | nil => exact h.refl w
  | cons body bodies ih =>
    rw [List.forall_mem_cons] at hb
    exact h.trans (hb.1 w) (ih hb.2 _)

/-- Steps end with a flush, and with a new timeline if they entered a scope. -/
theorem steps (forks : Nat) {bodies : List (Body τ)} (hb : ∀ b ∈ bodies, ∀ w, R w (b w))
    (w : Walk τ) : R w (w.steps forks bodies) := by
  simp only [Walk.steps]
  split
  · exact h.refl w
  · have hrun := h.trans (h.foldl hb w) (h.change _ .flush)
    split
    · exact h.trans hrun (h.renew none _)
    · exact hrun

/-- What the options of a sequence do to the scope that they give it. -/
theorem openScoped (o : Options τ) (w : Walk τ) :
    R (w.enter (some o) w.scope.element)
      (((w.enter (some o) w.scope.element).renew none).delay (delayOf (some o))) :=
  h.trans (h.renew none _) (h.delay _ _)

/-- A sequence runs in a scope if it has options, and in the scope around otherwise. -/
theorem sequence {bodies : List (Body τ)} (hb : ∀ b ∈ bodies, ∀ w, R w (b w))
    (options : Option (Options τ)) (w : Walk τ) : R w (w.sequence bodies options) := by
  refine h.trans ?_ (h.after .sequence _)
  simp only [openSequence]
  cases scoping options with
  | none => exact h.steps _ hb w
  | some o => exact h.leave rfl rfl rfl (h.trans (h.openScoped o w) (h.steps _ hb _))

theorem branch {body : Body τ} (hb : ∀ w, R w (body w)) (options : Option (Options τ))
    (furthest : τ) (w : Walk τ) : R w (w.branch options body furthest).1 :=
  h.leave rfl rfl rfl (h.trans (h.delay (delayOf options) _) (hb _))

/-- Every branch is a subtree in a scope of its own. -/
theorem branches {bodies : List (Body τ)} (hb : ∀ b ∈ bodies, ∀ w, R w (b w))
    (options : Option (Options τ)) (furthest : τ) (w : Walk τ) :
    R w (branches options bodies furthest w).1 := by
  induction bodies generalizing furthest w with
  | nil => exact h.refl w
  | cons body bodies ih =>
    rw [List.forall_mem_cons] at hb
    exact h.trans (h.branch hb.1 options furthest w) (ih hb.2 _ _)

/-- A group gathers its branches and goes on in a new timeline. -/
theorem group {bodies : List (Body τ)} (hb : ∀ b ∈ bodies, ∀ w, R w (b w))
    (options : Option (Options τ)) (w : Walk τ) : R w (w.group bodies options) :=
  h.trans (h.trans (h.trans (h.branches hb options w.currentTime w) (h.gather _ _))
    (h.renew _ _)) (h.after .group _)

/-! ### References and delegation -/

theorem reference {body : Body τ} (hb : ∀ w, R w (body w)) (options : Option (Options τ))
    (w : Walk τ) : R w (w.reference body options) :=
  h.trans (h.trans (h.update true options w) (hb _)) (h.after .reference _)

theorem referenceDelay (options : Option (Options τ)) (w : Walk τ) :
    R w (w.referenceDelay options) := by
  unfold Walk.referenceDelay
  split
  · exact h.refl w
  · split
    · exact h.refl w
    · exact h.trans (h.report w _) (h.delay _ _)

/-- What a used animation does to the scope that it is given. -/
theorem openUse (defaults options : Option (Options τ)) (w : Walk τ) :
    R (w.enter options w.scope.element) ((w.openUse defaults options).update true defaults) :=
  h.trans (h.trans (h.trans (h.renew none _) (h.referenceDelay options _))
    (h.referenceDelay defaults _)) (h.update true defaults _)

/-- The use of a reference is a subtree in a scope of its own, whose end the outer scope goes on
from. -/
theorem animateRef {body : Body τ} (hb : ∀ w, R w (body w))
    (defaults options : Option (Options τ)) (w : Walk τ) :
    R w (w.animateRef body defaults options) := by
  have hinner := h.trans (h.trans (h.openUse defaults options w) (hb _)) (h.after .reference _)
  exact h.trans (h.trans (h.leave rfl rfl rfl hinner) (h.renew _ _)) (h.after .animateRef _)

theorem placeAll {instructions : List (Instruction τ)}
    (hplace : ∀ p : Placement τ, p.source ∈ instructions →
      ∀ w, R w { w with score := w.score.place p }) (furthest : τ) (w : Walk τ) :
    R w (placeAll instructions furthest w).2 := by
  induction instructions generalizing furthest w with
  | nil => exact h.refl w
  | cons i is ih =>
    exact h.trans (hplace _ List.mem_cons_self w)
      (ih (fun p hp => hplace p (List.mem_cons_of_mem i hp)) _ _)

section Delegating

variable {setting : Setting τ}
  (hplace : ∀ element, ∀ p : Placement τ, p.source ∈ setting.delegated.instructions element →
    ∀ w, R w { w with score := w.score.place p })

include hplace

/-- What is placed for an element is what is delegated to it. -/
theorem placeDelegated (w : Walk τ) : R w (w.placeDelegated setting).2 := by
  unfold Walk.placeDelegated
  split
  · exact h.refl w
  · exact h.placeAll (hplace w.scope.element) _ w

/-- Delegated animations are placed in a scope of their own. -/
theorem animateChild (options : Option (Options τ)) (w : Walk τ) :
    R w (w.animateChild setting options) := by
  refine h.trans ?_ (h.after .animateChild _)
  split
  · have hleave : R w (Walk.leave w.scope
        ((w.enter options w.scope.element).placeDelegated setting).2) :=
      h.leave rfl rfl rfl (h.placeDelegated hplace _)
    simp only
    -- the outer scope goes on from the end, if there is something to wait for
    split
    · exact h.trans hleave (h.renew _ _)
    · exact hleave
  · exact h.refl w

end Delegating

/-! ### Queries and staggers -/

/-- A match is a subtree in a scope for its element. -/
theorem matched {body : Body τ} (hb : ∀ w, R w (body w)) (options : Option (Options τ))
    (element : ElementId) (index : Nat) (furthest : τ) (w : Walk τ) :
    R w (w.matched options body element index furthest).1 := by
  -- the scope of the query has the index of the match by then, but its own timeline
  have hopen := h.trans (h.delay (delayOf options)
    ({ w with scope := { w.scope with index := index } }.enter options element)) (hb _)
  exact h.leave (u := { w with scope := { w.scope with index := index } }) rfl rfl rfl
    (h.trans hopen (h.change _ .flush))

/-- The matches are made one after another. -/
theorem matchesFrom {body : Body τ} (hb : ∀ w, R w (body w)) (options : Option (Options τ))
    (elements : List ElementId) (index : Nat) (furthest : τ) (self : Option TimelineId)
    (w : Walk τ) : R w (matchesFrom options body elements index furthest self w).1 := by
  induction elements generalizing index furthest self w with
  | nil => exact h.refl w
  | cons element elements ih =>
    exact h.trans (h.matched hb options element index furthest w) (ih _ _ _ _)

theorem holdStyles (delay : τ) (w : Walk τ) : R w (w.holdStyles delay) := by
  unfold Walk.holdStyles
  split
  · exact h.trans (h.change w .snapshot) (h.rescope _ _ rfl rfl)
  · exact h.refl w

theorem openQuery (q : Selection) (elements : List ElementId) (options : Option (Options τ))
    (w : Walk τ) : R w (w.openQuery q elements options) := by
  refine h.trans (h.holdStyles (delayOf options) w) ?_
  -- the positions are part of the scope, and reset with or without a report
  simp only [Walk.openQuery]
  split
  · exact h.trans (h.report _ _) (h.rescope _ _ rfl rfl)
  · exact h.rescope _ _ rfl rfl

/-- The positions are reset, and what the element itself wrote is taken over. -/
theorem closeQuery (furthest : τ) (self : Option TimelineId) (w : Walk τ) :
    R w (w.closeQuery furthest self) := by
  have hrenew := h.trans (h.rescope w { w.scope with index := 0, total := 0 } rfl rfl)
    (h.renew (some furthest) _)
  cases self with
  | none => exact hrenew
  | some id => exact h.trans (h.trans hrenew (h.merge id _)) (h.change _ .snapshot)

/-- A query is opened, its matches are made, and it is closed. -/
theorem query (setting : Setting τ) {body : Body τ} (hb : ∀ w, R w (body w)) (q : Selection)
    (options : Option (Options τ)) (w : Walk τ) : R w (w.query setting body q options) :=
  h.trans (h.trans (h.trans (h.openQuery q _ options w) (h.matchesFrom hb options _ _ _ _ _))
    (h.closeQuery _ _ _)) (h.after .query _)

theorem openStagger (timing : Timing τ) (outer : Surroundings τ) (w : Walk τ) :
    R w (w.openStagger timing outer) :=
  h.trans (h.readTiming timing true w) (h.delay _ _)

/-- A stagger reads its timing and runs its animation; the recorded time is in the scope. -/
theorem stagger {body : Body τ} (hb : ∀ w, R w (body w)) (timing : Timing τ) (w : Walk τ) :
    R w (w.stagger body timing) := by
  unfold Walk.stagger
  split
  · exact h.trans (h.trans (h.report w _) (hb _)) (h.after .stagger _)
  · exact h.trans (h.trans (h.trans (h.openStagger timing _ w) (hb _)) (h.after .stagger _))
      (h.rescope _ _ rfl rfl)

/-! ### Trees -/

/-- Such a relation holds between the walks before and after any tree if it holds of placing
what is delegated. -/
theorem body {setting : Setting τ}
    (hplace : ∀ element, ∀ p : Placement τ, p.source ∈ setting.delegated.instructions element →
      ∀ w, R w { w with score := w.score.place p }) (tree : Animation τ) (w : Walk τ) :
    R w (tree.body setting w) := by
  -- by the lemmas above, one for each kind of node
  induction tree using Animation.induct generalizing w with
  | trigger | state | transition => exact h.refl w
  | sequence steps options ih => exact h.sequence (forall_mem_bodies ih) options w
  | group steps options ih => exact h.group (forall_mem_bodies ih) options w
  | animate timing target => exact h.animate timing target w
  | keyframes steps => exact h.keyframes steps w
  | style step => exact h.style step w
  | reference animation options ih => exact h.reference ih options w
  | animateChild options => exact h.animateChild hplace options w
  | animateRef animation defaults options ih => exact h.animateRef ih defaults options w
  | query selection animation options ih => exact h.query setting ih selection options w
  | stagger timing animation ih => exact h.stagger ih timing w

end Stepwise

namespace Compositional

variable {R : Walk τ → Walk τ → Prop} (h : Compositional R)

include h

theorem placeAll (instructions : List (Instruction τ)) (furthest : τ) (w : Walk τ) :
    R w (placeAll instructions furthest w).2 :=
  h.toStepwise.placeAll (fun p _ => h.place p) furthest w

theorem placeDelegated (setting : Setting τ) (w : Walk τ) : R w (w.placeDelegated setting).2 :=
  h.toStepwise.placeDelegated (fun _ p _ => h.place p) w

theorem animateChild (setting : Setting τ) (options : Option (Options τ)) (w : Walk τ) :
    R w (w.animateChild setting options) :=
  h.toStepwise.animateChild (fun _ p _ => h.place p) options w

/-- Such a relation holds between the walks before and after any tree. -/
theorem body (setting : Setting τ) (tree : Animation τ) (w : Walk τ) :
    R w (tree.body setting w) :=
  h.toStepwise.body (fun _ p _ => h.place p) tree w

/-- And so it does for those of several. -/
theorem of_mem_bodies {setting : Setting τ} {steps : List (Animation τ)} :
    ∀ b ∈ bodies setting steps, ∀ w, R w (b w) :=
  forall_mem_bodies fun step _ => h.body setting step

end Compositional

end Walk

end Choreography
