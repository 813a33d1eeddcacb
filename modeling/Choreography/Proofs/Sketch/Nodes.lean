/-
Choreography/Proofs/Sketch/Nodes.lean

Sketches of nodes.

Every kind of node has a drawing, which does to a sketch what the node does to a walk, and a
drawing of a node that contains others is made of theirs, as in `Choreography.Compile.Steps`.
Nothing in a drawing mentions a time.

A drawing of a body takes a sketch of a walk to a sketch of where the body leads (`Draws`).
The lemmas go through the kinds of nodes one after another, in the order in which these are
defined, and `Animation.draws` ties them together.  Two places ask for more than the steps of a
node: what a branch or a match has written is gathered from timelines that have to belong to
the element of the scope (`Owns`), and the instructions that elements already have bring style
values of their own (`Setting.Provides`).
-/
import Choreography.Proofs.Sketch
import Choreography.Proofs.Tame

namespace Choreography

variable {τ : Type} [Quantity τ]

/-! ### Drawings -/

namespace Sketch

/-- Draws keyframes. -/
def keyframes (steps : List (StyleStep τ)) (k : Sketch τ) : Sketch τ :=
  if k.animated then
    k.leave (steps.foldl (fun k step => k.write step.entries) (k.enter none k.element))
  else k.report [.keyframesOutsideAnimate]

/-- Draws the target of an animated step. -/
def moveTo (target : Target τ) (k : Sketch τ) : Sketch τ :=
  match target with
  | .style step => k.write step.entries
  | .keyframes steps => k.keyframes steps

/-- Draws an animated step. -/
def animate (timing : Timing τ) (target : Target τ) (k : Sketch τ) : Sketch τ :=
  (((k.readTiming timing false).withTimings true).moveTo target).withTimings false

/-- Draws in a scope. -/
def inScope (options : Option (Options τ)) (element : ElementId) (draw : Sketch τ → Sketch τ)
    (k : Sketch τ) : Sketch τ :=
  k.leave (draw (k.enter options element))

/-- Draws steps one after another. -/
def follow (draws : List (Sketch τ → Sketch τ)) (k : Sketch τ) : Sketch τ :=
  draws.foldl (fun k draw => draw k) k

/-- The sketch in which the steps of a sequence are drawn. -/
def openSequence (options : Option (Options τ)) (k : Sketch τ) : Sketch τ :=
  match Walk.scoping options with
  | none => k
  | some o => k.enter (some o) k.element

/-- Draws a sequence. -/
def sequence (draws : List (Sketch τ → Sketch τ)) (options : Option (Options τ))
    (k : Sketch τ) : Sketch τ :=
  let inner := (k.openSequence options).follow draws
  if (Walk.scoping options).isSome then k.leave inner else inner

/-- Draws a group. -/
def group (draws : List (Sketch τ → Sketch τ)) (options : Option (Options τ)) (k : Sketch τ) :
    Sketch τ :=
  draws.foldl (fun k draw => k.inScope options k.element draw) k

/-- Draws a reference. -/
def reference (draw : Sketch τ → Sketch τ) (options : Option (Options τ)) (k : Sketch τ) :
    Sketch τ :=
  draw (k.update true options)

/-- Draws the delay of a reference or its use. -/
def referenceDelay (options : Option (Options τ)) (k : Sketch τ) : Sketch τ :=
  match options with
  | none => k
  | some o =>
    match o.delay with
    | none => k
    | some delay => k.log [.scalar delay (o.params.getD ∅)]

/-- The sketch in which the use of a reference is drawn. -/
def openUse (defaults options : Option (Options τ)) (k : Sketch τ) : Sketch τ :=
  ((k.enter options k.element).referenceDelay options).referenceDelay defaults

/-- Draws the use of a reference. -/
def animateRef (draw : Sketch τ → Sketch τ) (defaults options : Option (Options τ))
    (k : Sketch τ) : Sketch τ :=
  k.leave ((k.openUse defaults options).reference draw defaults)

/-- Draws the animations that the element has already. -/
def animateChild (setting : Setting τ) (options : Option (Options τ)) (k : Sketch τ) :
    Sketch τ :=
  if setting.delegated.contains k.element then k.inScope options k.element id else k

/-- The sketch from which the matches of a query are drawn. -/
def openQuery (q : Selection) (elements : List ElementId) (k : Sketch τ) : Sketch τ :=
  if !q.optional && elements.isEmpty then k.report [.unresolvableSelector q.display] else k

/-- Draws matches of a query. -/
def matched (draw : Sketch τ → Sketch τ) (options : Option (Options τ))
    (elements : List ElementId) (k : Sketch τ) : Sketch τ :=
  elements.foldl (fun k element => k.inScope options element draw) k

/-- Draws a query. -/
def query (setting : Setting τ) (draw : Sketch τ → Sketch τ) (q : Selection)
    (options : Option (Options τ)) (k : Sketch τ) : Sketch τ :=
  let elements := setting.select k.element q
  (k.openQuery q elements).matched draw options elements

/-- The sketch in which the animation of a stagger is drawn. -/
def openStagger (timing : Timing τ) (k : Sketch τ) : Sketch τ :=
  if k.nested then k.readTiming timing true else k.report [.staggerOutsideQuery]

end Sketch

mutual

/-- Draws a tree. -/
def Animation.sketch (setting : Setting τ) : Animation τ → Sketch τ → Sketch τ
  | .trigger .. | .state _ | .transition _ => id
  | .sequence steps options => Sketch.sequence (sketches setting steps) options
  | .group steps options => Sketch.group (sketches setting steps) options
  | .animate timing target => Sketch.animate timing target
  | .keyframes steps => Sketch.keyframes steps
  | .style step => Sketch.write step.entries
  | .reference animation options => Sketch.reference (animation.sketch setting) options
  | .animateChild options => Sketch.animateChild setting options
  | .animateRef animation defaults options =>
    Sketch.animateRef (animation.sketch setting) defaults options
  | .query selection animation options =>
    Sketch.query setting (animation.sketch setting) selection options
  | .stagger timing animation => animation.sketch setting ∘ Sketch.openStagger timing

/-- The drawings of several trees. -/
def sketches (setting : Setting τ) : List (Animation τ) → List (Sketch τ → Sketch τ)
  | [] => []
  | step :: steps => step.sketch setting :: sketches setting steps

end

theorem sketches_eq_map (setting : Setting τ) (steps : List (Animation τ)) :
    sketches setting steps = steps.map (Animation.sketch setting) := by
  induction steps with
  | nil => rfl
  | cons step steps ih => rw [sketches, ih, List.map_cons]

theorem forall_mem_sketches {setting : Setting τ} {steps : List (Animation τ)}
    {P : (Sketch τ → Sketch τ) → Prop} (h : ∀ step ∈ steps, P (step.sketch setting)) :
    ∀ draw ∈ sketches setting steps, P draw := by
  rw [sketches_eq_map]
  exact List.forall_mem_map.2 h

/-! ### What a drawing keeps -/

namespace Sketch

/-- Nothing but names and events was added. -/
def Keeps (k k' : Sketch τ) : Prop := k.leave k' = k'

omit [Quantity τ] in
theorem Keeps.trans {k k' k'' : Sketch τ} (h : Keeps k k') (h' : Keeps k' k'') : Keeps k k'' := by
  calc k.leave k''
    _ = (k.leave k').leave k'' := rfl
    _ = k'' := by rw [h, h']

omit [Quantity τ] in
theorem Keeps.params {k k' : Sketch τ} (h : Keeps k k') : k'.params = k.params :=
  (congrArg Sketch.params h).symm

omit [Quantity τ] in
theorem Keeps.animated {k k' : Sketch τ} (h : Keeps k k') : k'.animated = k.animated :=
  (congrArg Sketch.animated h).symm

/-- A scope is drawn on its own, and what was in force around it is in force again. -/
theorem keeps_inScope (options : Option (Options τ)) (element : ElementId)
    (draw : Sketch τ → Sketch τ) (k : Sketch τ) : Keeps k (k.inScope options element draw) :=
  rfl

omit [Quantity τ] in
/-- What is kept at each step of a list is kept along the list. -/
theorem keeps_foldl {α : Type} {f : Sketch τ → α → Sketch τ} (hf : ∀ k a, Keeps k (f k a))
    (as : List α) (k : Sketch τ) : Keeps k (as.foldl f k) := by
  induction as generalizing k with
  | nil => rfl
  | cons a as ih => exact (hf k a).trans (ih _)

theorem keeps_keyframes (steps : List (StyleStep τ)) (k : Sketch τ) : Keeps k (k.keyframes steps) := by
  unfold keyframes
  split <;> rfl

omit [Quantity τ] in
theorem keeps_readTiming (timing : Timing τ) (allowNegative : Bool) (k : Sketch τ) :
    Keeps k (k.readTiming timing allowNegative) := by
  cases timing <;> rfl

theorem keeps_group (draws : List (Sketch τ → Sketch τ)) (options : Option (Options τ))
    (k : Sketch τ) : Keeps k (k.group draws options) :=
  keeps_foldl (fun k draw => keeps_inScope options k.element draw k) draws k

theorem keeps_animateChild (setting : Setting τ) (options : Option (Options τ)) (k : Sketch τ) :
    Keeps k (k.animateChild setting options) := by
  unfold animateChild
  split <;> rfl

omit [Quantity τ] in
theorem keeps_openQuery (q : Selection) (elements : List ElementId) (k : Sketch τ) :
    Keeps k (k.openQuery q elements) := by
  unfold openQuery
  split <;> rfl

/-- Each match of a query is drawn in a scope, and before them there is at most a report. -/
theorem keeps_query (setting : Setting τ) (draw : Sketch τ → Sketch τ) (q : Selection)
    (options : Option (Options τ)) (k : Sketch τ) : Keeps k (k.query setting draw q options) :=
  (keeps_openQuery q _ k).trans
    (keeps_foldl (fun k element => keeps_inScope options element draw k) _ _)

omit [Quantity τ] in
/-- A stagger reads its timing or is reported; neither changes what is in force. -/
theorem keeps_openStagger (timing : Timing τ) (k : Sketch τ) : Keeps k (k.openStagger timing) := by
  unfold openStagger
  split
  · exact keeps_readTiming timing true k
  · rfl

/-- The place is the same, whatever is in force there. -/
structure Stays (k k' : Sketch τ) : Prop where
  element : k'.element = k.element
  nested : k'.nested = k.nested
  /-- If there is no animated step around, there is still none. -/
  calm : k.animated = false → k'.animated = false

omit [Quantity τ] in
theorem Stays.refl (k : Sketch τ) : Stays k k := ⟨rfl, rfl, id⟩

omit [Quantity τ] in
theorem Stays.trans {k k' k'' : Sketch τ} (h : Stays k k') (h' : Stays k' k'') : Stays k k'' :=
  ⟨h'.element.trans h.element, h'.nested.trans h.nested, h'.calm ∘ h.calm⟩

omit [Quantity τ] in
/-- What keeps all but names and events keeps the place. -/
theorem Keeps.stays {k k' : Sketch τ} (h : Keeps k k') : Stays k k' :=
  ⟨(congrArg Sketch.element h).symm, (congrArg Sketch.nested h).symm, h.animated.trans⟩

theorem stays_update (keep : Bool) (options : Option (Options τ)) (k : Sketch τ) :
    Stays k (k.update keep options) := by
  cases options <;> exact ⟨rfl, rfl, id⟩

/-- An animated step ends as it began, except that there is no animated step around any more. -/
theorem stays_animate (timing : Timing τ) (target : Target τ) (k : Sketch τ) :
    Stays k (k.animate timing target) := by
  have hmove : ∀ k : Sketch τ, Stays k (k.moveTo target) := by
    intro k
    cases target with
    | style step => exact ⟨rfl, rfl, id⟩
    | keyframes steps => exact (keeps_keyframes steps k).stays
  -- `withTimings` is set for the target and reset after it, so `Keeps` would be too much to ask
  have htimed := (keeps_readTiming timing false k).stays
  have hmoved := hmove ((k.readTiming timing false).withTimings true)
  exact ⟨hmoved.element.trans htimed.element, hmoved.nested.trans htimed.nested, fun _ => rfl⟩

omit [Quantity τ] in
theorem stays_follow {draws : List (Sketch τ → Sketch τ)}
    (h : ∀ draw ∈ draws, ∀ k, Stays k (draw k)) (k : Sketch τ) : Stays k (k.follow draws) := by
  induction draws generalizing k with
  | nil => exact .refl k
  | cons draw draws ih =>
    rw [List.forall_mem_cons] at h
    exact (h.1 k).trans (ih h.2 (draw k))

end Sketch

/-- A drawing ends where it began. -/
theorem Animation.stays_sketch (setting : Setting τ) (tree : Animation τ) (k : Sketch τ) :
    k.Stays (tree.sketch setting k) := by
  induction tree using Animation.induct generalizing k with
  | sequence steps options ih =>
    unfold Animation.sketch Sketch.sequence Sketch.openSequence
    cases Walk.scoping options with
    -- the steps share the scope of the sequence, so each of them has to stay in it
    | none => exact Sketch.stays_follow (forall_mem_sketches ih) k
    -- the scope is left at the end, whatever happened in it
    | some o => exact ⟨rfl, rfl, id⟩
  | group steps options => exact (k.keeps_group _ options).stays
  | animate timing target => exact k.stays_animate timing target
  | keyframes steps => exact (k.keeps_keyframes steps).stays
  | reference animation options ih => exact (k.stays_update true options).trans (ih _)
  | animateChild options => exact (k.keeps_animateChild setting options).stays
  | query selection animation options => exact (k.keeps_query setting _ selection options).stays
  | stagger timing animation ih => exact (k.keeps_openStagger timing).stays.trans (ih _)
  | _ => exact ⟨rfl, rfl, id⟩

/-! ### Depicting -/

/-- The style values that a run finds before it does anything. -/
structure Setting.Provides (setting : Setting τ) (base : StyleValue τ → Prop) : Prop where
  auto : base .auto
  delegated : ∀ element, ∀ i ∈ setting.delegated.instructions element, i.Stocked base

namespace Walk

variable {base : StyleValue τ → Prop} {lineage : Nat} {k : Sketch τ} {w : Walk τ}
variable {draw : Sketch τ → Sketch τ} {body : Body τ}
variable {draws : List (Sketch τ → Sketch τ)} {bodies : List (Body τ)}

/-- A drawing of what a node does. -/
structure Draws (base : StyleValue τ → Prop) (lineage : Nat) (draw : Sketch τ → Sketch τ)
    (body : Body τ) : Prop where
  effect : ∀ w, Effect w (body w)
  depicts : ∀ {k w}, Depicts base lineage k w → Depicts base lineage (draw k) (body w)

/-- Bodies that can be drawn have an effect. -/
theorem effect_of_draws (hb : List.Forall₂ (Draws base lineage) draws bodies) :
    ∀ body ∈ bodies, ∀ w, Effect w (body w) := by
  induction hb with
  | nil => exact nofun
  | cons hbody _ ih => exact List.forall_mem_cons.2 ⟨hbody.effect, ih⟩

/-! ### Timelines of the element -/

/-- A timeline belongs to the element of the scope. -/
structure Owns (lineage : Nat) (w : Walk τ) (id : TimelineId) : Prop where
  lt : id < w.score.timelines.length
  cell : w.score.cell id = (lineage, w.scope.element)

/-- A timeline keeps its element, whatever the walk does next. -/
theorem Owns.effect {w' : Walk τ} {id : TimelineId} (h : Owns lineage w id) (he : Effect w w') :
    Owns lineage w' id where
  lt := Nat.lt_of_lt_of_le h.lt he.length_le
  cell := by
    rw [he.element, ← h.cell]
    exact congrArg (fun o => (o.1, o.2.1)) (he.owner_eq h.lt)

/-- It still does when the scope is left for one of the same element. -/
theorem Owns.leave {inner : Walk τ} {id : TimelineId} (h : Owns lineage inner id)
    {scope : Scope τ} (he : inner.scope.element = scope.element) :
    Owns lineage (Walk.leave scope inner) id :=
  ⟨h.lt, he ▸ h.cell⟩

/-- The timeline of the scope is one of its element. -/
theorem Depicts.owns (h : Depicts base lineage k w) : Owns lineage w w.scope.timeline :=
  ⟨h.valid.timeline, h.element ▸ h.cell_eq⟩

namespace Depicts

/-- Timelines of the element are merged without a trace in the sketch. -/
theorem gather (h : Depicts base lineage k w) {ids : List TimelineId}
    (hids : ∀ id ∈ ids, Owns lineage w id) : Depicts base lineage k (w.gather ids) := by
  induction ids generalizing w with
  | nil => exact h
  | cons id ids ih =>
    rw [List.forall_mem_cons] at hids
    have hcell : w.score.cell id = (lineage, k.element) := h.element ▸ hids.1.cell
    -- the timelines that are left belong to the element still, for a merge has an effect
    exact ih (h.merge hids.1.lt hcell) fun id' hid' => (hids.2 id' hid').effect (effect_merge id w)

/-! ### Clocks and styles -/

theorem advance (h : Depicts base lineage k w) (hauto : base .auto) (time : τ) :
    Depicts base lineage k (w.advance time) :=
  h.change hauto (c := .moveTo (w.timeline.duration + time)) trivial

theorem delay (h : Depicts base lineage k w) (hauto : base .auto) (time : τ) :
    Depicts base lineage k (w.delay time) := by
  unfold Walk.delay
  split
  · exact h.change hauto (c := .delay time) trivial
  · exact h

/-- A style is drawn as the writing of its entries, whether or not it starts a new frame. -/
theorem style (h : Depicts base lineage k w) (hauto : base .auto) (step : StyleStep τ) :
    Depicts base lineage (k.write step.entries) (w.style step) := by
  have hframe : Depicts base lineage k
      (if w.scope.timings.isNone && w.timeline.hasCurrentStyles then
        w.edit (Scene.onTimeline Timeline.forwardFrame) else w) := by
    split
    · exact h.change hauto (c := .nextFrame) trivial
    · exact h
  -- without entries the element is asked for all that is shared, which adds no name
  have hwrite : ∀ (easing : Option String) {w : Walk τ}, Depicts base lineage k w →
      Depicts base lineage (k.write step.entries)
        (if step.entries.isEmpty then w.edit (Scene.setEmptyStep easing)
          else w.writeAt w.scope.timeline step.entries easing) := by
    intro easing w h
    split
    · next hempty =>
      rw [List.isEmpty_iff.1 hempty, Sketch.write_nil]
      exact h.change hauto (c := .emptyStep easing) trivial
    · exact h.writeAt hauto step.entries easing
  exact (hwrite _ hframe).after .style

/-- The keyframes of a step are drawn one after another, without their offsets. -/
theorem playKeyframes (h : Depicts base lineage k w) (hauto : base .auto) (duration : τ)
    (steps : List (StyleStep τ × τ)) :
    Depicts base lineage ((steps.map Prod.fst).foldl (fun k step => k.write step.entries) k)
      (w.playKeyframes duration steps) := by
  unfold Walk.playKeyframes
  induction steps generalizing k w with
  | nil => exact h
  | cons step steps ih =>
    have hmove := h.change hauto (c := .moveTo (step.2 * duration)) trivial
    exact ih ((hmove.writeAt hauto step.1.entries step.1.easing).change hauto (c := .flush) trivial)

/-- Keyframes are drawn in a scope of their own, or as the report that there is no step around. -/
theorem keyframes (h : Depicts base lineage k w) (hauto : base .auto)
    (steps : List (StyleStep τ)) :
    Depicts base lineage (k.keyframes steps) (w.keyframes steps) := by
  unfold Sketch.keyframes
  rw [← h.animated]
  cases ht : w.scope.timings with
  | none =>
    simp only [Walk.keyframes, ht]
    exact h.report _
  | some timings =>
    rw [keyframes_eq ht]
    have hopen : Depicts base lineage (k.enter none k.element) (w.openKeyframes timings) := by
      rw [← h.element]
      exact (h.enter none w.scope.element).change hauto (c := .ease timings.easing) trivial
    -- the offsets do not matter, as long as there is one for each step
    have hzip : (steps.zip (resolvedOffsets steps)).map Prod.fst = steps :=
      List.map_fst_zip (Nat.le_of_eq (length_resolvedOffsets steps).symm)
    have hinner := hopen.playKeyframes hauto timings.duration (steps.zip (resolvedOffsets steps))
    rw [hzip] at hinner
    have heffect : Effect (w.enter none w.scope.element) ((w.openKeyframes timings).playKeyframes
        timings.duration (steps.zip (resolvedOffsets steps))) :=
      (Effect.change _ (.ease timings.easing)).trans (Effect.compositional.playKeyframes _ _ _)
    -- the timeline on which they ran is merged back, so it has to belong to the element
    have helement := heffect.element.trans (enter_element w none w.scope.element)
    have hleave := h.leave hinner (.leave rfl rfl rfl heffect)
    refine ((hleave.gather fun id hid => ?_).renew _).after .keyframes
    rw [List.mem_singleton.1 hid]
    exact hinner.owns.leave helement

/-- An animated step is drawn as the reading of its timing and its target. -/
theorem animate (h : Depicts base lineage k w) (hauto : base .auto) (timing : Timing τ)
    (target : Target τ) :
    Depicts base lineage (k.animate timing target) (w.animate timing target) := by
  have hopen : ∀ timings : Timings τ, Depicts base lineage
      ((k.readTiming timing false).withTimings true)
      ((w.readTiming timing false).2.openAnimate timings) := by
    intro timings
    have htimings := (h.readTiming timing false).withTimings (some timings)
    simp only [openAnimate]
    split
    · exact (htimings.advance hauto timings.delay).change hauto (c := .snapshot) trivial
    · exact htimings
  -- the duration only moves the clock, so the target is drawn alike for all of them
  have hmove : ∀ {k : Sketch τ} {w : Walk τ} (duration : τ), Depicts base lineage k w →
      Depicts base lineage (k.moveTo target) (w.moveTo duration target) := by
    intro k w duration h
    cases target with
    | style step =>
      exact ((h.advance hauto duration).style hauto step).change hauto (c := .flush) trivial
    | keyframes steps => exact h.keyframes hauto steps
  exact ((hmove _ (hopen _)).withTimings none).after .animate

/-! ### Sequences and groups -/

theorem follow (h : Depicts base lineage k w)
    (hb : List.Forall₂ (Draws base lineage) draws bodies) :
    Depicts base lineage (k.follow draws) (w.follow bodies) := by
  induction hb generalizing k w with
  | nil => exact h
  | cons hbody _ ih => exact ih (hbody.depicts h)

/-- The steps of a sequence are drawn one after another; the flush after them is not drawn. -/
theorem steps (h : Depicts base lineage k w) (hauto : base .auto)
    (hb : List.Forall₂ (Draws base lineage) draws bodies) (forks : Nat) :
    Depicts base lineage (k.follow draws) (w.steps forks bodies) := by
  simp only [Walk.steps]
  split
  · next hempty =>
    -- no steps, no drawings
    cases hb with
    | nil => exact h
    | cons _ _ => cases hempty
  · have hrun := (h.follow hb).change hauto (c := .flush) trivial
    split
    · exact hrun.renew none
    · exact hrun

theorem openSequence (h : Depicts base lineage k w) (hauto : base .auto)
    (options : Option (Options τ)) :
    Depicts base lineage (k.openSequence options) (w.openSequence options) := by
  unfold Sketch.openSequence Walk.openSequence
  rw [← h.element]
  cases scoping options with
  | none => exact h
  | some o => exact ((h.enter (some o) w.scope.element).renew none).delay hauto (delayOf (some o))

/-- A sequence is drawn as its steps, in a scope if it has options. -/
theorem sequence (h : Depicts base lineage k w) (hauto : base .auto)
    (hb : List.Forall₂ (Draws base lineage) draws bodies) (options : Option (Options τ)) :
    Depicts base lineage (k.sequence draws options) (w.sequence bodies options) := by
  have hinner := (h.openSequence hauto options).steps hauto hb w.scope.forks
  unfold Sketch.sequence Walk.sequence
  cases hscoping : scoping options with
  | none => exact hinner.after .sequence
  | some o =>
    -- the scope is left with what happened in it, so the outer timeline is still there
    have heffect : Effect (w.enter (some o) w.scope.element)
        ((w.openSequence options).steps w.scope.forks bodies) := by
      unfold Walk.openSequence
      rw [hscoping]
      exact (Effect.compositional.openScoped o w).trans
        (Effect.compositional.steps _ (effect_of_draws hb) _)
    exact (h.leave hinner (.leave rfl rfl rfl heffect)).after .sequence

theorem openBranch (h : Depicts base lineage k w) (hauto : base .auto)
    (options : Option (Options τ)) :
    Depicts base lineage (k.enter options k.element) (w.openBranch options) := by
  rw [← h.element]
  exact (h.enter options w.scope.element).delay hauto (delayOf options)

/-- A branch of a group is drawn in a scope, and its timeline is one of the element. -/
theorem branch (h : Depicts base lineage k w) (hauto : base .auto)
    (hbody : Draws base lineage draw body) (options : Option (Options τ)) (furthest : τ) :
    Depicts base lineage (k.inScope options k.element draw) (w.branch options body furthest).1 ∧
      Owns lineage (w.branch options body furthest).1 (w.branch options body furthest).2.2 := by
  have hinner := hbody.depicts (h.openBranch hauto options)
  have heffect : Effect (w.enter options w.scope.element) (body (w.openBranch options)) :=
    (Effect.compositional.delay _ _).trans (hbody.effect _)
  have helement := heffect.element.trans (enter_element w options w.scope.element)
  exact ⟨h.leave hinner (.leave rfl rfl rfl heffect), hinner.owns.leave helement⟩

/-- The branches are drawn one after another, and all of their timelines belong to the element. -/
theorem branches (h : Depicts base lineage k w) (hauto : base .auto)
    (hb : List.Forall₂ (Draws base lineage) draws bodies) (options : Option (Options τ))
    (furthest : τ) :
    Depicts base lineage (k.group draws options) (branches options bodies furthest w).1 ∧
      ∀ id ∈ (Walk.branches options bodies furthest w).2.2,
        Owns lineage (Walk.branches options bodies furthest w).1 id := by
  induction hb generalizing k w furthest with
  | nil => exact ⟨h, nofun⟩
  | cons hbody hrest ih =>
    obtain ⟨hfirst, howns⟩ := h.branch hauto hbody options furthest
    obtain ⟨hlast, hothers⟩ := ih hfirst _
    -- the timeline of the first branch outlives the others
    refine ⟨hlast, List.forall_mem_cons.2 ⟨howns.effect ?_, hothers⟩⟩
    exact Effect.compositional.branches (effect_of_draws hrest) options _ _

/-- A group is drawn as its branches; gathering what they wrote is not drawn. -/
theorem group (h : Depicts base lineage k w) (hauto : base .auto)
    (hb : List.Forall₂ (Draws base lineage) draws bodies) (options : Option (Options τ)) :
    Depicts base lineage (k.group draws options) (w.group bodies options) := by
  obtain ⟨hbranches, howns⟩ := h.branches hauto hb options w.currentTime
  exact ((hbranches.gather howns).renew _).after .group

/-! ### References and delegation -/

/-- A reference is drawn as its animation with the defaults in force. -/
theorem reference (h : Depicts base lineage k w) (hbody : Draws base lineage draw body)
    (options : Option (Options τ)) :
    Depicts base lineage (k.reference draw options) (w.reference body options) :=
  (hbody.depicts (h.update true options)).after .reference

/-- A delay that is given as a text is drawn as the interpolation of that text. -/
theorem referenceDelay (h : Depicts base lineage k w) (hauto : base .auto)
    (options : Option (Options τ)) :
    Depicts base lineage (k.referenceDelay options) (w.referenceDelay options) := by
  unfold Sketch.referenceDelay Walk.referenceDelay
  cases options with
  | none => exact h
  | some o =>
    cases hdelay : o.delay with
    | none => simpa only [hdelay] using h
    | some delay =>
      -- only the reports of the delay are drawn, not the time it takes
      have hreports : (delay.interpolate (o.params.getD ∅)).2 =
          Event.allReports [Event.scalar delay (o.params.getD ∅)] :=
        (List.flatMap_singleton _ _).symm
      simpa only [hdelay] using (h.log hreports).delay hauto _

/-- The use of a reference starts in a scope, with both of its delays drawn. -/
theorem openUse (h : Depicts base lineage k w) (hauto : base .auto)
    (defaults options : Option (Options τ)) :
    Depicts base lineage (k.openUse defaults options) (w.openUse defaults options) := by
  unfold Sketch.openUse
  rw [← h.element]
  have hopen := (h.enter options w.scope.element).renew none
  exact (hopen.referenceDelay hauto options).referenceDelay hauto defaults

/-- The use of a reference is drawn as the reference in a scope. -/
theorem animateRef (h : Depicts base lineage k w) (hauto : base .auto)
    (hbody : Draws base lineage draw body) (defaults options : Option (Options τ)) :
    Depicts base lineage (k.animateRef draw defaults options)
      (w.animateRef body defaults options) := by
  have hinner := (h.openUse hauto defaults options).reference hbody defaults
  have heffect : Effect (w.enter options w.scope.element)
      ((w.openUse defaults options).reference body defaults) :=
    ((Effect.compositional.openUse defaults options w).trans (hbody.effect _)).trans
      (Effect.compositional.after .reference _)
  exact ((h.leave hinner (.leave rfl rfl rfl heffect)).renew _).after .animateRef

theorem placeAll (h : Depicts base lineage k w) {instructions : List (Instruction τ)}
    (hstock : ∀ i ∈ instructions, i.Stocked base) (furthest : τ) :
    Depicts base lineage k (placeAll instructions furthest w).2 := by
  induction instructions generalizing furthest w with
  | nil => exact h
  | cons i is ih =>
    rw [List.forall_mem_cons] at hstock
    exact ih (h.place fun keyframe hk => (hstock.1 keyframe hk).mono fun _ => .inl) hstock.2 _

/-- The animations that an element has already are drawn as an empty scope, or not at all. -/
theorem animateChild {setting : Setting τ} (h : Depicts base lineage k w)
    (hbase : setting.Provides base) (options : Option (Options τ)) :
    Depicts base lineage (k.animateChild setting options) (w.animateChild setting options) := by
  unfold Sketch.animateChild Walk.animateChild
  rw [← h.element]
  split
  · -- what is placed was provided, so no value comes up that the sketch cannot account for
    have hplace : ∀ {k : Sketch τ} {w : Walk τ}, Depicts base lineage k w →
        Depicts base lineage k (w.placeDelegated setting).2 := by
      intro k w h
      unfold placeDelegated
      split
      · exact h
      · exact h.placeAll (hbase.delegated _) _
    have heffect := Effect.compositional.placeDelegated setting (w.enter options w.scope.element)
    have hleave := h.leave (hplace (h.enter options w.scope.element)) (.leave rfl rfl rfl heffect)
    simp only
    split
    · exact (hleave.renew _).after .animateChild
    · exact hleave.after .animateChild
  · exact h.after .animateChild

/-! ### Queries and staggers -/

/-- A query without matches is reported unless it is optional. -/
theorem openQuery (h : Depicts base lineage k w) (hauto : base .auto) (q : Selection)
    (elements : List ElementId) (options : Option (Options τ)) :
    Depicts base lineage (k.openQuery q elements) (w.openQuery q elements options) := by
  -- holding styles only queues what is known already
  have hhold : ∀ delay : τ, Depicts base lineage k (w.holdStyles delay) := by
    intro delay
    unfold holdStyles
    split
    · exact (h.change hauto (c := .snapshot) trivial).rescope rfl rfl rfl h.animated h.nested
    · exact h
  have hreport : Depicts base lineage (k.openQuery q elements)
      (if !q.optional && elements.isEmpty then
        (w.holdStyles (delayOf options)).report [.unresolvableSelector q.display]
        else w.holdStyles (delayOf options)) := by
    unfold Sketch.openQuery
    split
    · exact (hhold _).report _
    · exact hhold _
  exact hreport.rescope rfl rfl rfl hreport.animated hreport.nested

/-- A match starts in a scope for its element. -/
theorem openMatch (h : Depicts base lineage k w) (hauto : base .auto)
    (options : Option (Options τ)) (element : ElementId) (index : Nat) :
    Depicts base lineage (k.enter options element) (w.openMatch options element index) := by
  -- the index is for staggers, and a sketch has none
  have hindex : Depicts base lineage k { w with scope := { w.scope with index := index } } :=
    h.rescope rfl rfl rfl h.animated h.nested
  exact (hindex.enter options element).delay hauto (delayOf options)

/-- A match is drawn in a scope for its element; if that is the element of the query, the timeline
of the match belongs to it. -/
theorem matched (h : Depicts base lineage k w) (hauto : base .auto)
    (hbody : Draws base lineage draw body) (options : Option (Options τ)) (element : ElementId)
    (index : Nat) (furthest : τ) :
    Depicts base lineage (k.inScope options element draw)
        (w.matched options body element index furthest).1 ∧
      (element = w.scope.element → Owns lineage (w.matched options body element index furthest).1
        (w.matched options body element index furthest).2.2) := by
  let u : Walk τ := { w with scope := { w.scope with index := index } }
  have hopen := h.openMatch hauto options element index
  have hinner := (hbody.depicts hopen).change hauto (c := .flush) trivial
  have hbodies : Effect (w.openMatch options element index)
      ((body (w.openMatch options element index)).edit Scene.flush) :=
    (hbody.effect _).trans (.change _ .flush)
  have heffect : Effect (u.enter options element)
      ((body (w.openMatch options element index)).edit Scene.flush) :=
    (Effect.compositional.delay _ _).trans hbodies
  -- only a match for the element itself is gathered, so only then its timeline has to be owned
  refine ⟨h.leave hinner (.leave (u := u) rfl rfl rfl heffect), fun he => ?_⟩
  have helement := heffect.element.trans (enter_element u options element)
  exact (hopen.owns.effect hbodies).leave (helement.trans he)

/-- The matches are drawn one after another.  The timeline that is returned, if any, belongs to the
element of the query. -/
theorem matchesFrom (h : Depicts base lineage k w) (hauto : base .auto)
    (hbody : Draws base lineage draw body) (options : Option (Options τ))
    (elements : List ElementId) (index : Nat) (furthest : τ) {self : Option TimelineId}
    (hself : ∀ id, self = some id → Owns lineage w id) :
    Depicts base lineage (k.matched draw options elements)
        (matchesFrom options body elements index furthest self w).1 ∧
      ∀ id, (Walk.matchesFrom options body elements index furthest self w).2.2 = some id →
        Owns lineage (Walk.matchesFrom options body elements index furthest self w).1 id := by
  induction elements generalizing k w index furthest self with
  | nil => exact ⟨h, hself⟩
  | cons element elements ih =>
    obtain ⟨hfirst, howns⟩ := h.matched hauto hbody options element index furthest
    have heffect := Effect.compositional.matched hbody.effect options element index furthest w
    refine ih hfirst _ _ fun id hid => ?_
    -- either this match is the one for the element itself, or it came before
    split at hid
    · next he => exact Option.some.inj hid ▸ howns he
    · exact (hself id hid).effect heffect

/-- What the match for the element itself wrote is merged back, which is not drawn. -/
theorem closeQuery (h : Depicts base lineage k w) (hauto : base .auto) (furthest : τ)
    {self : Option TimelineId} (hself : ∀ id, self = some id → Owns lineage w id) :
    Depicts base lineage k (w.closeQuery furthest self) := by
  let u : Walk τ := { w with scope := { w.scope with index := 0, total := 0 } }
  have hu : Depicts base lineage k u := h.rescope rfl rfl rfl h.animated h.nested
  have hrenew := hu.renew (some furthest)
  cases self with
  | none => exact hrenew
  | some id =>
    have howns := (hself id rfl).effect ((Effect.rescope w u.scope rfl rfl).trans
      (effect_renew (some furthest) u))
    -- the renewed timeline is a new one, and the old one still belongs to the element
    have hcell := howns.cell
    rw [hrenew.element] at hcell
    exact (hrenew.merge howns.lt hcell).change hauto (c := .snapshot) trivial

/-- A query is drawn as its matches. -/
theorem query {setting : Setting τ} (h : Depicts base lineage k w) (hauto : base .auto)
    (hbody : Draws base lineage draw body) (q : Selection) (options : Option (Options τ)) :
    Depicts base lineage (k.query setting draw q options) (w.query setting body q options) := by
  unfold Sketch.query
  rw [← h.element]
  let elements := setting.select w.scope.element q
  have hnone : ∀ id, none = some id → Owns lineage (w.openQuery q elements options) id := nofun
  obtain ⟨hmatches, howns⟩ := (h.openQuery hauto q elements options).matchesFrom hauto hbody options
    elements 0 w.currentTime hnone
  exact (hmatches.closeQuery hauto _ howns).after .query

theorem atStagger (h : Depicts base lineage k w) (hauto : base .auto) (timing : Timing τ) :
    Depicts base lineage (k.openStagger timing) (w.atStagger timing) := by
  unfold Sketch.openStagger Walk.atStagger
  rw [← h.nested]
  cases w.scope.outer with
  | none => exact h.report _
  | some outer => exact (h.readTiming timing true).delay hauto _

/-- A stagger is drawn as its animation, after its timing. -/
theorem stagger (h : Depicts base lineage k w) (hauto : base .auto)
    (hbody : Draws base lineage draw body) (hstays : ∀ k : Sketch τ, k.Stays (draw k))
    (timing : Timing τ) :
    Depicts base lineage (draw (k.openStagger timing)) (w.stagger body timing) := by
  have hinner := (hbody.depicts (h.atStagger hauto timing)).after .stagger
  -- the time for the next match is left in the scope around, which is there as before
  have houter : w.scope.outer.isSome = (draw (k.openStagger timing)).nested := by
    rw [(hstays _).nested, (k.keeps_openStagger timing).stays.nested, h.nested]
  unfold Walk.atStagger at hinner
  unfold Walk.stagger
  cases hs : w.scope.outer with
  | none =>
    rw [hs] at hinner
    exact hinner
  | some outer =>
    rw [hs] at hinner houter
    exact hinner.rescope rfl rfl rfl hinner.animated houter

end Depicts

end Walk

/-! ### Trees -/

theorem forall₂_draws {setting : Setting τ} {base : StyleValue τ → Prop} {lineage : Nat}
    {steps : List (Animation τ)}
    (h : ∀ step ∈ steps, Walk.Draws base lineage (step.sketch setting) (step.body setting)) :
    List.Forall₂ (Walk.Draws base lineage) (sketches setting steps) (bodies setting steps) := by
  rw [sketches_eq_map, bodies_eq_map, List.forall₂_map_left_iff, List.forall₂_map_right_iff,
    List.forall₂_same]
  exact h

/-- The drawing of a tree shows what the tree does. -/
theorem Animation.draws {setting : Setting τ} {base : StyleValue τ → Prop}
    (hbase : setting.Provides base) (lineage : Nat) (tree : Animation τ) :
    Walk.Draws base lineage (tree.sketch setting) (tree.body setting) := by
  have hauto := hbase.auto
  refine ⟨tree.effect setting, ?_⟩
  -- the effect is known for every tree, so the induction is on what is depicted alone
  induction tree using Animation.induct with
  | trigger | state | transition => exact id
  | sequence steps options ih =>
    exact fun h => h.sequence hauto
      (forall₂_draws fun step hstep => ⟨step.effect setting, ih step hstep⟩) options
  | group steps options ih =>
    exact fun h => h.group hauto
      (forall₂_draws fun step hstep => ⟨step.effect setting, ih step hstep⟩) options
  | animate timing target => exact fun h => h.animate hauto timing target
  | keyframes steps => exact fun h => h.keyframes hauto steps
  | style step => exact fun h => h.style hauto step
  | reference animation options ih =>
    exact fun h => h.reference ⟨animation.effect setting, ih⟩ options
  | animateChild options => exact fun h => h.animateChild hbase options
  | animateRef animation defaults options ih =>
    exact fun h => h.animateRef hauto ⟨animation.effect setting, ih⟩ defaults options
  | query selection animation options ih =>
    exact fun h => h.query hauto ⟨animation.effect setting, ih⟩ selection options
  | stagger timing animation ih =>
    exact fun h => h.stagger hauto ⟨animation.effect setting, ih⟩
      (animation.stays_sketch setting) timing

end Choreography
