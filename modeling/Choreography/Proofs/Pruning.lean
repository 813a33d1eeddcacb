/-
Choreography/Proofs/Pruning.lean

Trees from which nodes that only describe have been deleted.

`tree.PrunesTo tree'` says that `tree'` is what is left of `tree` when some triggers, states
and transitions are taken out of the steps of its sequences and groups, wherever these are: also
those inside triggers and transitions.  Where there are steps, some are left: a group without any
steps is over at once, and one whose steps do nothing when its delay has gone by.

The relation has one case for every kind of node, so that an induction over the first tree
meets the nodes of the two side by side.
-/
import Choreography.Proofs.Tree

namespace Choreography

variable {τ : Type}

/-- The nodes that only describe. -/
def Animation.describes : Animation τ → Bool
  | .trigger .. | .state _ | .transition _ => true
  | _ => false

/-- They do nothing. -/
theorem Animation.body_of_describes [Quantity τ] (setting : Setting τ) {node : Animation τ}
    (h : node.describes = true) : node.body setting = id := by
  cases node with
  | trigger | state | transition => rfl
  | _ => cases h

mutual

/-- What is left of a tree when some nodes that only describe are deleted from the steps of its
sequences and groups. -/
inductive Animation.PrunesTo : Animation τ → Animation τ → Prop
  | trigger {name : String} {states : List (NamedState τ)} {ts ts' : List (Transition τ)} :
      TransitionsPruneTo ts ts' →
        Animation.PrunesTo (.trigger name states ts) (.trigger name states ts')
  | state (s : NamedState τ) : Animation.PrunesTo (.state s) (.state s)
  | transition {t t' : Transition τ} :
      t.PrunesTo t' → Animation.PrunesTo (.transition t) (.transition t')
  | sequence {steps steps' : List (Animation τ)} {options : Option (Options τ)} :
      StepsPruneTo steps steps' → (steps ≠ [] → steps' ≠ []) →
        Animation.PrunesTo (.sequence steps options) (.sequence steps' options)
  | group {steps steps' : List (Animation τ)} {options : Option (Options τ)} :
      StepsPruneTo steps steps' → (steps ≠ [] → steps' ≠ []) →
        Animation.PrunesTo (.group steps options) (.group steps' options)
  | animate (timing : Timing τ) (target : Target τ) :
      Animation.PrunesTo (.animate timing target) (.animate timing target)
  | keyframes (steps : List (StyleStep τ)) :
      Animation.PrunesTo (.keyframes steps) (.keyframes steps)
  | style (step : StyleStep τ) : Animation.PrunesTo (.style step) (.style step)
  | reference {animation animation' : Animation τ} {options : Option (Options τ)} :
      animation.PrunesTo animation' →
        Animation.PrunesTo (.reference animation options) (.reference animation' options)
  | animateChild (options : Option (Options τ)) :
      Animation.PrunesTo (.animateChild options) (.animateChild options)
  | animateRef {animation animation' : Animation τ} {defaults options : Option (Options τ)} :
      animation.PrunesTo animation' →
        Animation.PrunesTo (.animateRef animation defaults options)
          (.animateRef animation' defaults options)
  | query {selection : Selection} {animation animation' : Animation τ}
      {options : Option (Options τ)} :
      animation.PrunesTo animation' →
        Animation.PrunesTo (.query selection animation options)
          (.query selection animation' options)
  | stagger {timing : Timing τ} {animation animation' : Animation τ} :
      animation.PrunesTo animation' →
        Animation.PrunesTo (.stagger timing animation) (.stagger timing animation')

/-- The same for steps, some of which are deleted. -/
inductive StepsPruneTo : List (Animation τ) → List (Animation τ) → Prop
  | nil : StepsPruneTo [] []
  | keep {step step' : Animation τ} {steps steps' : List (Animation τ)} :
      step.PrunesTo step' → StepsPruneTo steps steps' →
        StepsPruneTo (step :: steps) (step' :: steps')
  | delete {step : Animation τ} {steps steps' : List (Animation τ)} :
      step.describes = true → StepsPruneTo steps steps' → StepsPruneTo (step :: steps) steps'

/-- The same for the animation of a transition. -/
inductive Transition.PrunesTo : Transition τ → Transition τ → Prop
  | mk {expression : String} {animation animation' : Animation τ} {options : Option (Options τ)} :
      animation.PrunesTo animation' →
        Transition.PrunesTo (.mk expression animation options) (.mk expression animation' options)

/-- The same for the transitions of a trigger, none of which are deleted. -/
inductive TransitionsPruneTo : List (Transition τ) → List (Transition τ) → Prop
  | nil : TransitionsPruneTo [] []
  | cons {t t' : Transition τ} {ts ts' : List (Transition τ)} :
      t.PrunesTo t' → TransitionsPruneTo ts ts' → TransitionsPruneTo (t :: ts) (t' :: ts')

end

/-- There is nothing left if and only if there was nothing. -/
theorem StepsPruneTo.bodies_eq_nil_iff [Quantity τ] (setting : Setting τ)
    {steps steps' : List (Animation τ)} (h : StepsPruneTo steps steps')
    (hne : steps ≠ [] → steps' ≠ []) : bodies setting steps = [] ↔ bodies setting steps' = [] := by
  rw [bodies_eq_map, bodies_eq_map, List.map_eq_nil_iff, List.map_eq_nil_iff]
  refine ⟨?_, not_imp_not.1 hne⟩
  rintro rfl
  cases h
  rfl

end Choreography
