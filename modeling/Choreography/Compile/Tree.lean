/-
Choreography/Compile/Tree.lean

What a tree does: the node kinds of `Choreography.Compile.Steps`, each applied to
what the nodes inside it do.
-/
import Choreography.Compile.Steps

namespace Choreography

variable {τ : Type} [Quantity τ]

mutual

/-- What a tree does to a walk.  Triggers, states and transitions do nothing. -/
def Animation.body (setting : Setting τ) : Animation τ → Body τ
  | .trigger .. | .state _ | .transition _ => id
  | .sequence steps options => Walk.sequence (bodies setting steps) options
  | .group steps options => Walk.group (bodies setting steps) options
  | .animate timing target => Walk.animate timing target
  | .keyframes steps => Walk.keyframes steps
  | .style step => Walk.style step
  | .reference animation options => Walk.reference (animation.body setting) options
  | .animateChild options => Walk.animateChild setting options
  | .animateRef animation defaults options =>
    Walk.animateRef (animation.body setting) defaults options
  | .query selection animation options =>
    Walk.query setting (animation.body setting) selection options
  | .stagger timing animation => Walk.stagger (animation.body setting) timing

/-- What each of several trees does. -/
def bodies (setting : Setting τ) : List (Animation τ) → List (Body τ)
  | [] => []
  | step :: steps => step.body setting :: bodies setting steps

end

end Choreography
