/-
Choreography/Proofs/Parameters.lean

How far parameters reach.

A node that enters a scope brings its parameters into force there, and they are gone when the
scope is left.  A reference brings them into force where it stands.  What a tree leaves behind
is therefore what its references declare that no scope encloses, its `exposed` parameters
(`Animation.params_body`); nothing is exposed of a branch of a group, which has a scope of its
own, but of a step of a sequence it may be.

Everything else that matters to what is interpolated in a later step is not touched by
parameters: which names are known of an element does not depend on them.  Two drawings are
`Twins` if they lead to the same names, and those of two trees that differ in the parameters they
declare are (`Animation.twins_of_withoutParams`).
-/
import Choreography.Animation.Build
import Choreography.Proofs.Sketch.Frame

namespace Choreography

variable {τ : Type}

/-! ### Exposed parameters -/

/-- The parameters that options declare. -/
def Options.declared (options : Option (Options τ)) : List (String × Scalar τ) :=
  ((options.bind Options.params).getD ∅).entries

mutual

/-- The parameters that stay in force after a tree: those of the references that stand in no
scope of their own. -/
def Animation.exposed : Animation τ → List (String × Scalar τ)
  | .sequence steps options => if (Walk.scoping options).isSome then [] else exposedOf steps
  | .reference animation options => Options.declared options ++ animation.exposed
  | .stagger _ animation => animation.exposed
  | _ => []

/-- The same for several trees. -/
def exposedOf : List (Animation τ) → List (String × Scalar τ)
  | [] => []
  | step :: steps => step.exposed ++ exposedOf steps

end

/-- The exposed parameters of steps stand one after another. -/
theorem exposedOf_append (xs ys : List (Animation τ)) :
    exposedOf (xs ++ ys) = exposedOf xs ++ exposedOf ys := by
  induction xs with
  | nil => rfl
  | cons x xs ih => rw [List.cons_append, exposedOf, exposedOf, ih, List.append_assoc]

variable [Quantity τ]

/-- Parameters with others brought into force that are not there yet. -/
def Params.extend (declared : List (String × Scalar τ)) (params : Params τ) : Params τ :=
  (Overrides.addParams true declared params).1

/-- Parameters may be brought into force at once, or one list after another. -/
theorem Params.extend_append (xs ys : List (String × Scalar τ)) (params : Params τ) :
    extend (xs ++ ys) params = extend ys (extend xs params) := by
  unfold extend
  induction xs generalizing params with
  | nil => rfl
  | cons x xs ih =>
    simp only [List.cons_append, Overrides.addParams]
    -- a name that is there already keeps its value, on both sides
    split
    · exact ih params
    · exact ih _

theorem Params.Same.extend {p q : Params τ} (h : Same p q) (declared : List (String × Scalar τ)) :
    Same (p.extend declared) (q.extend declared) :=
  (h.addParams true declared).1

/-- A reference brings the parameters of its options into force. -/
theorem Sketch.params_update (options : Option (Options τ)) (k : Sketch τ) :
    (k.update true options).params = Params.extend (Options.declared options) k.params := by
  cases options <;> rfl

theorem Sketch.params_animate (timing : Timing τ) (target : Target τ) (k : Sketch τ) :
    (k.animate timing target).params = k.params := by
  have hmove : ∀ k : Sketch τ, (k.moveTo target).params = k.params := by
    intro k
    cases target with
    | style step => rfl
    | keyframes steps => exact (k.keeps_keyframes steps).params
  exact (hmove _).trans (k.keeps_readTiming timing false).params

/-- The parameters after steps, one after another. -/
theorem Sketch.params_follow {setting : Setting τ} {steps : List (Animation τ)}
    (h : ∀ step ∈ steps, ∀ k : Sketch τ,
      (step.sketch setting k).params = Params.extend step.exposed k.params) (k : Sketch τ) :
    (k.follow (sketches setting steps)).params = Params.extend (exposedOf steps) k.params := by
  induction steps generalizing k with
  | nil => rfl
  | cons step steps ih =>
    rw [List.forall_mem_cons] at h
    rw [exposedOf, Params.extend_append, ← h.1]
    exact ih h.2 _

/-- What is drawn of a tree has the parameters that the tree exposes. -/
theorem Animation.params_sketch (setting : Setting τ) (tree : Animation τ) (k : Sketch τ) :
    (tree.sketch setting k).params = Params.extend tree.exposed k.params := by
  induction tree using Animation.induct generalizing k with
  | sequence steps options ih =>
    unfold Animation.sketch Animation.exposed Sketch.sequence Sketch.openSequence
    -- without a scope of its own, the sequence leaves behind what its steps expose
    cases Walk.scoping options with
    | none => exact Sketch.params_follow ih k
    | some o => rfl
  | group steps options => exact (k.keeps_group _ options).params
  | animate timing target => exact k.params_animate timing target
  | keyframes steps => exact (k.keeps_keyframes steps).params
  | reference animation options ih =>
    rw [exposed, Params.extend_append, ← Sketch.params_update]
    exact ih _
  | animateChild options => exact (k.keeps_animateChild setting options).params
  | query selection animation options => exact (k.keeps_query setting _ selection options).params
  | stagger timing animation ih =>
    rw [exposed, ← (k.keeps_openStagger timing).params]
    exact ih _
  | _ => rfl

open Walk (Depicts) in
/-- The parameters in force after a tree. -/
theorem Animation.params_body {setting : Setting τ} {base : StyleValue τ → Prop} {lineage : Nat}
    (hbase : setting.Provides base) (tree : Animation τ) {k : Sketch τ} {w : Walk τ}
    (h : Depicts base lineage k w) :
    (tree.body setting w).scope.options.params =
      w.scope.options.params.extend tree.exposed := by
  rw [((tree.draws hbase lineage).depicts h).params, tree.params_sketch, h.params]

/-! ### Trees without their parameters -/

/-- Options without their parameters. -/
def Options.withoutParams (options : Option (Options τ)) : Option (Options τ) :=
  some { options.getD .none with params := .none }

mutual

/-- A tree without the parameters that it declares. -/
def Animation.withoutParams : Animation τ → Animation τ
  | .trigger name states transitions =>
    .trigger name states (withoutParamsOfTransitions transitions)
  | .state s => .state s
  | .transition t => .transition t.withoutParams
  | .sequence steps options => .sequence (withoutParamsOf steps) (Options.withoutParams options)
  | .group steps options => .group (withoutParamsOf steps) (Options.withoutParams options)
  | .animate timing target => .animate timing target
  | .keyframes steps => .keyframes steps
  | .style step => .style step
  | .reference animation options =>
    .reference animation.withoutParams (Options.withoutParams options)
  | .animateChild options => .animateChild (Options.withoutParams options)
  | .animateRef animation defaults options =>
    .animateRef animation.withoutParams (Options.withoutParams defaults)
      (Options.withoutParams options)
  | .query selection animation options =>
    .query selection animation.withoutParams (Options.withoutParams options)
  | .stagger timing animation => .stagger timing animation.withoutParams

/-- A transition without the parameters that it declares. -/
def Transition.withoutParams : Transition τ → Transition τ
  | .mk expression animation options =>
    .mk expression animation.withoutParams (Options.withoutParams options)

/-- The same for several trees. -/
def withoutParamsOf : List (Animation τ) → List (Animation τ)
  | [] => []
  | step :: steps => step.withoutParams :: withoutParamsOf steps

/-- The same for several transitions. -/
def withoutParamsOfTransitions : List (Transition τ) → List (Transition τ)
  | [] => []
  | t :: ts => t.withoutParams :: withoutParamsOfTransitions ts

end

omit [Quantity τ] in
/-- Parameters are dropped step by step. -/
theorem withoutParamsOf_eq_map (steps : List (Animation τ)) :
    withoutParamsOf steps = steps.map Animation.withoutParams := by
  induction steps with
  | nil => rfl
  | cons step steps ih => rw [withoutParamsOf, ih, List.map_cons]

/-! ### Names -/

namespace Sketch

/-- Two sketches stand at the same element, both in an animated step or none, and know the
same names. -/
structure Alike (k k' : Sketch τ) : Prop where
  element : k'.element = k.element
  names : k'.names = k.names
  animated : k'.animated = k.animated

section Alike

variable {k k' k'' : Sketch τ}

omit [Quantity τ]

theorem Alike.refl (k : Sketch τ) : Alike k k := ⟨rfl, rfl, rfl⟩

theorem Alike.symm (h : Alike k k') : Alike k' k :=
  ⟨h.element.symm, h.names.symm, h.animated.symm⟩

theorem Alike.trans (h : Alike k k') (h' : Alike k' k'') : Alike k k'' :=
  ⟨h'.element.trans h.element, h'.names.trans h.names, h'.animated.trans h.animated⟩

/-- Scopes that are left alike leave their names behind. -/
theorem Alike.leave (h : Alike k k') {inner inner' : Sketch τ} (hinner : Alike inner inner') :
    Alike (k.leave inner) (k'.leave inner') :=
  ⟨h.element, hinner.names, h.animated⟩

theorem Alike.withTimings (h : Alike k k') (animated : Bool) :
    Alike (k.withTimings animated) (k'.withTimings animated) :=
  ⟨h.element, h.names, rfl⟩

/-- The same entries write the same names, whatever their values are. -/
theorem Alike.write (h : Alike k k') (entries : List (StyleEntry τ)) :
    Alike (k.write entries) (k'.write entries) := by
  refine ⟨h.element, ?_, h.animated⟩
  show Function.update k'.names k'.element _ = Function.update k.names k.element _
  rw [h.element, h.names]

/-- What keeps sketches alike does so many times, too. -/
theorem Alike.foldl {α : Type} {f f' : Sketch τ → α → Sketch τ}
    (hf : ∀ a k k', Alike k k' → Alike (f k a) (f' k' a)) (as : List α) (h : Alike k k') :
    Alike (as.foldl f k) (as.foldl f' k') := by
  induction as generalizing k k' with
  | nil => exact h
  | cons a as ih => exact ih (hf a k k' h)

/-- Only reports come of reading a timing. -/
theorem alike_readTiming (timing : Timing τ) (allowNegative : Bool) (k : Sketch τ) :
    Alike k (k.readTiming timing allowNegative) := by
  cases timing <;> exact ⟨rfl, rfl, rfl⟩

theorem alike_openStagger (timing : Timing τ) (k : Sketch τ) : Alike k (k.openStagger timing) := by
  unfold openStagger
  split
  · exact alike_readTiming timing true k
  · exact ⟨rfl, rfl, rfl⟩

theorem alike_referenceDelay (options : Option (Options τ)) (k : Sketch τ) :
    Alike k (k.referenceDelay options) := by
  unfold referenceDelay
  split
  · exact .refl k
  · split <;> exact ⟨rfl, rfl, rfl⟩

theorem alike_openQuery (q : Selection) (elements : List ElementId) (k : Sketch τ) :
    Alike k (k.openQuery q elements) := by
  unfold openQuery
  split <;> exact ⟨rfl, rfl, rfl⟩

end Alike

variable {k k' : Sketch τ}

/-- Options do not change any names, whatever parameters they have. -/
theorem alike_update (keep : Bool) (options : Option (Options τ)) (k : Sketch τ) :
    Alike k (k.update keep options) := by
  cases options <;> exact ⟨rfl, rfl, rfl⟩

/-- Entering the same element from sketches that are alike. -/
theorem Alike.enter (h : Alike k k') (options options' : Option (Options τ))
    (element : ElementId) : Alike (k.enter options element) (k'.enter options' element) := by
  have hplace : Alike { k with element := element, nested := true }
      { k' with element := element, nested := true } := ⟨rfl, h.names, h.animated⟩
  exact ((alike_update false options _).symm.trans hplace).trans (alike_update false options' _)

/-- To enter a scope for the element itself changes no names. -/
theorem alike_enter (options : Option (Options τ)) (k : Sketch τ) :
    Alike k (k.enter options k.element) :=
  (⟨rfl, rfl, rfl⟩ : Alike k { k with element := k.element, nested := true }).trans
    (alike_update false options _)

theorem alike_openSequence (options : Option (Options τ)) (k : Sketch τ) :
    Alike k (k.openSequence options) := by
  unfold openSequence
  cases Walk.scoping options with
  | none => exact .refl k
  | some o => exact alike_enter (some o) k

theorem alike_openUse (defaults options : Option (Options τ)) (k : Sketch τ) :
    Alike k (k.openUse defaults options) :=
  ((alike_enter options k).trans (alike_referenceDelay options _)).trans
    (alike_referenceDelay defaults _)

/-- Keyframes write the same names, in an animated step or nowhere. -/
theorem Alike.keyframes (h : Alike k k') (steps : List (StyleStep τ)) :
    Alike (k.keyframes steps) (k'.keyframes steps) := by
  unfold Sketch.keyframes
  rw [h.animated, h.element]
  split
  · have hopen := h.enter none none k.element
    exact h.leave (hopen.foldl (fun step _ _ h => h.write step.entries) steps)
  · exact ⟨h.element, h.names, h.animated⟩

theorem Alike.animate (h : Alike k k') (timing : Timing τ) (target : Target τ) :
    Alike (k.animate timing target) (k'.animate timing target) := by
  -- both read the timing, and an animated step begins in both
  have htimed := (((alike_readTiming timing false k).symm.trans h).trans
    (alike_readTiming timing false k')).withTimings true
  cases target with
  | style step => exact (htimed.write step.entries).withTimings false
  | keyframes steps => exact (htimed.keyframes steps).withTimings false

/-- Two drawings that stay where they are, and lead from sketches that are alike to sketches
that are, if there is no animated step around. -/
structure Twins (draw draw' : Sketch τ → Sketch τ) : Prop where
  stays : ∀ k, Stays k (draw k)
  stays' : ∀ k, Stays k (draw' k)
  alike : ∀ {k k'}, k.animated = false → Alike k k' → Alike (draw k) (draw' k')

variable {draw draw' : Sketch τ → Sketch τ} {draws draws' : List (Sketch τ → Sketch τ)}

/-- Twins are so in scopes of their own, too. -/
theorem Twins.inScope (h : Twins draw draw') (options options' : Option (Options τ))
    (element : ElementId) (hcalm : k.animated = false) (hk : Alike k k') :
    Alike (k.inScope options element draw) (k'.inScope options' element draw') := by
  -- a scope does not begin an animated step
  have hopen : (k.enter options element).animated = false := by
    cases options <;> exact hcalm
  exact hk.leave (h.alike hopen (hk.enter options options' element))

/-- They are so on one matched element after another. -/
theorem Twins.matched (h : Twins draw draw') (options options' : Option (Options τ))
    (elements : List ElementId) (hcalm : k.animated = false) (hk : Alike k k') :
    Alike (k.matched draw options elements) (k'.matched draw' options' elements) := by
  -- no match leads into an animated step, so the next one is still outside of any
  induction elements generalizing k k' with
  | nil => exact hk
  | cons element elements ih => exact ih hcalm (h.inScope options options' element hcalm hk)

theorem Twins.update (h : Twins draw draw') (keep : Bool) (options options' : Option (Options τ))
    (hcalm : k.animated = false) (hk : Alike k k') :
    Alike (draw (k.update keep options)) (draw' (k'.update keep options')) :=
  h.alike ((alike_update keep options k).animated.trans hcalm)
    (((alike_update keep options k).symm.trans hk).trans (alike_update keep options' k'))

theorem Twins.animateRef (h : Twins draw draw')
    (defaults defaults' options options' : Option (Options τ)) (hcalm : k.animated = false)
    (hk : Alike k k') :
    Alike (k.animateRef draw defaults options) (k'.animateRef draw' defaults' options') := by
  have hopen := alike_openUse defaults options k
  have hopen' := alike_openUse defaults' options' k'
  exact hk.leave (h.update true defaults defaults' (hopen.animated.trans hcalm)
    ((hopen.symm.trans hk).trans hopen'))

theorem alike_group (h : List.Forall₂ Twins draws draws') (options options' : Option (Options τ))
    (hcalm : k.animated = false) (hk : Alike k k') :
    Alike (k.group draws options) (k'.group draws' options') := by
  unfold group
  induction h generalizing k k' with
  | nil => exact hk
  | cons hdraw _ ih =>
    refine ih hcalm ?_
    show Alike (k.inScope options k.element _) (k'.inScope options' k'.element _)
    rw [hk.element]
    exact hdraw.inScope options options' k.element hcalm hk

omit [Quantity τ] in
theorem alike_follow (h : List.Forall₂ Twins draws draws') (hcalm : k.animated = false)
    (hk : Alike k k') : Alike (k.follow draws) (k'.follow draws') := by
  induction h generalizing k k' with
  | nil => exact hk
  | cons hdraw _ ih => exact ih ((hdraw.stays k).calm hcalm) (hdraw.alike hcalm hk)

omit [Quantity τ] in
/-- Twins stay where they are, all of them. -/
theorem Twins.forall_stays (h : List.Forall₂ Twins draws draws') :
    (∀ draw ∈ draws, ∀ k, Stays k (draw k)) ∧ ∀ draw ∈ draws', ∀ k, Stays k (draw k) := by
  induction h with
  | nil => exact ⟨nofun, nofun⟩
  | cons hdraw _ ih =>
    exact ⟨List.forall_mem_cons.2 ⟨hdraw.stays, ih.1⟩, List.forall_mem_cons.2 ⟨hdraw.stays', ih.2⟩⟩

/-- Whether the steps of a sequence have a scope of their own does not matter. -/
theorem alike_sequence (hdraws : ∀ draw ∈ draws, ∀ k, Stays k (draw k))
    (options : Option (Options τ)) (hcalm : k.animated = false) :
    Alike ((k.openSequence options).follow draws) (k.sequence draws options) := by
  have hopen := alike_openSequence options k
  have hstays := stays_follow hdraws (k.openSequence options)
  have hinner := hstays.calm (hopen.animated.trans hcalm)
  unfold sequence
  split
  · exact ⟨(hstays.element.trans hopen.element).symm, rfl, hcalm.trans hinner.symm⟩
  · exact .refl _

/-- Sequences are twins if their steps are, one by one. -/
theorem Twins.sequence (h : List.Forall₂ Twins draws draws')
    (options options' : Option (Options τ)) (hcalm : k.animated = false) (hk : Alike k k') :
    Alike (k.sequence draws options) (k'.sequence draws' options') := by
  have hopen := alike_openSequence options k
  have hopen' := alike_openSequence options' k'
  have hinner := alike_follow h (hopen.animated.trans hcalm) ((hopen.symm.trans hk).trans hopen')
  -- either sequence may have a scope of its own where the other has none
  obtain ⟨hstays, hstays'⟩ := Twins.forall_stays h
  exact ((alike_sequence hstays options hcalm).symm.trans hinner).trans
    (alike_sequence hstays' options' (hk.animated.trans hcalm))

/-- Delegated animations write no names. -/
theorem Alike.animateChild (h : Alike k k') (setting : Setting τ)
    (options options' : Option (Options τ)) :
    Alike (k.animateChild setting options) (k'.animateChild setting options') := by
  unfold Sketch.animateChild
  rw [h.element]
  split
  · exact h.leave (h.enter options options' k.element)
  · exact h

end Sketch

open Sketch (Twins Alike) in
/-- The names after a tree do not depend on the parameters that it declares. -/
theorem Animation.twins_withoutParams (setting : Setting τ) (tree : Animation τ) :
    Twins (tree.sketch setting) (tree.withoutParams.sketch setting) := by
  refine ⟨tree.stays_sketch setting, tree.withoutParams.stays_sketch setting, ?_⟩
  -- the steps of both trees, side by side
  have hlist : ∀ {steps : List (Animation τ)}, (∀ step ∈ steps, ∀ {k k' : Sketch τ},
      k.animated = false → Alike k k' →
        Alike (step.sketch setting k) (step.withoutParams.sketch setting k')) →
      List.Forall₂ Twins (sketches setting steps) (sketches setting (withoutParamsOf steps)) := by
    intro steps h
    rw [withoutParamsOf_eq_map, sketches_eq_map, sketches_eq_map, List.map_map,
      List.forall₂_map_left_iff, List.forall₂_map_right_iff, List.forall₂_same]
    exact fun step hstep =>
      ⟨step.stays_sketch setting, step.withoutParams.stays_sketch setting, h step hstep⟩
  induction tree using Animation.induct with
  | trigger | state | transition => exact fun _ hk => hk
  | sequence steps options ih => exact fun hcalm hk => Twins.sequence (hlist ih) _ _ hcalm hk
  | group steps options ih => exact fun hcalm hk => Sketch.alike_group (hlist ih) _ _ hcalm hk
  | animate timing target => exact fun _ hk => hk.animate timing target
  | keyframes steps => exact fun _ hk => hk.keyframes steps
  | style step => exact fun _ hk => hk.write step.entries
  | reference animation options ih =>
    exact fun hcalm hk => Twins.update ⟨animation.stays_sketch setting,
      animation.withoutParams.stays_sketch setting, ih⟩ true _ _ hcalm hk
  | animateChild options => exact fun _ hk => hk.animateChild setting _ _
  | animateRef animation defaults options ih =>
    exact fun hcalm hk => Twins.animateRef ⟨animation.stays_sketch setting,
      animation.withoutParams.stays_sketch setting, ih⟩ _ _ _ _ hcalm hk
  | query q animation options ih =>
    intro k k' hcalm hk
    have hopen := Sketch.alike_openQuery q (setting.select k.element q) k
    have hopen' := Sketch.alike_openQuery q (setting.select k.element q) k'
    have hmatched := Twins.matched ⟨animation.stays_sketch setting,
      animation.withoutParams.stays_sketch setting, ih⟩ options (Options.withoutParams options)
      (setting.select k.element q) (hopen.animated.trans hcalm) ((hopen.symm.trans hk).trans hopen')
    rw [withoutParams, sketch, sketch, Sketch.query, Sketch.query, hk.element]
    exact hmatched
  | stagger timing animation ih =>
    intro k k' hcalm hk
    have hopen := Sketch.alike_openStagger timing k
    have hopen' := Sketch.alike_openStagger timing k'
    exact ih (hopen.animated.trans hcalm) ((hopen.symm.trans hk).trans hopen')

/-- Nor do they after trees that differ in these parameters only. -/
theorem Animation.twins_of_withoutParams (setting : Setting τ) {tree tree' : Animation τ}
    (h : tree.withoutParams = tree'.withoutParams) :
    Sketch.Twins (tree.sketch setting) (tree'.sketch setting) := by
  have htree := tree.twins_withoutParams setting
  have htree' := tree'.twins_withoutParams setting
  rw [← h] at htree'
  refine ⟨htree.stays, htree'.stays, fun {k k'} hcalm hk => ?_⟩
  have hcalm' : k'.animated = false := hk.animated.trans hcalm
  exact (htree.alike hcalm hk).trans (htree'.alike hcalm' (.refl k')).symm

end Choreography
