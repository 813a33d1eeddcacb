/-
Choreography/Proofs/Tree.lean

Induction over animation trees, as far as they are compiled.

Triggers, states and transitions only describe, so nothing is ever asked about the
nodes inside them: `Animation.induct` has them as leaves.  The other node kinds are
induced on as they are built, and the steps of sequences and groups come with the
property for each of them.

What a list of nodes does is the list of what each of them does (`bodies_eq_map`),
and a valid list is a list of valid nodes (`validateSteps_eq_ok`).

A condition on single nodes is put on a tree by asking it of all its `nodes`.
-/
import Mathlib
import Choreography.Animation.Validation
import Choreography.Compile.Tree

namespace Choreography

variable {τ : Type}

/-! ### Induction -/

/-- Induction over the part of a tree that is compiled. -/
theorem Animation.induct {P : Animation τ → Prop}
    (trigger : ∀ name states transitions, P (.trigger name states transitions))
    (state : ∀ s, P (.state s))
    (transition : ∀ t, P (.transition t))
    (sequence : ∀ steps options, (∀ step ∈ steps, P step) → P (.sequence steps options))
    (group : ∀ steps options, (∀ step ∈ steps, P step) → P (.group steps options))
    (animate : ∀ timing target, P (.animate timing target))
    (keyframes : ∀ steps, P (.keyframes steps))
    (style : ∀ step, P (.style step))
    (reference : ∀ animation options, P animation → P (.reference animation options))
    (animateChild : ∀ options, P (.animateChild options))
    (animateRef : ∀ animation defaults options, P animation →
      P (.animateRef animation defaults options))
    (query : ∀ selection animation options, P animation → P (.query selection animation options))
    (stagger : ∀ timing animation, P animation → P (.stagger timing animation))
    (tree : Animation τ) : P tree := by
  refine @Animation.rec τ P (fun _ => True) (fun _ => True) (fun steps => ∀ step ∈ steps, P step)
    (fun name states transitions _ => trigger name states transitions) state
    (fun t _ => transition t) sequence group animate keyframes style reference animateChild
    animateRef query stagger (fun _ _ _ _ => trivial) trivial (fun _ _ _ _ => trivial) ?_ ?_ tree
  · -- the property of a list is that all its steps have the property
    intro step hstep
    cases hstep
  · intro head tail hhead htail step hstep
    rcases List.mem_cons.1 hstep with rfl | h
    · exact hhead
    · exact htail step h

/-! ### Lists of nodes -/

theorem bodies_eq_map [Quantity τ] (setting : Setting τ) (steps : List (Animation τ)) :
    bodies setting steps = steps.map (Animation.body setting) := by
  induction steps with
  | nil => rfl
  | cons step steps ih => rw [bodies, ih, List.map_cons]

/-- Whatever holds of the body of each step holds of all their bodies. -/
theorem forall_mem_bodies [Quantity τ] {setting : Setting τ} {steps : List (Animation τ)}
    {P : Body τ → Prop} (h : ∀ step ∈ steps, P (step.body setting)) :
    ∀ b ∈ bodies setting steps, P b := by
  rw [bodies_eq_map]
  exact List.forall_mem_map.2 h

/-- A list of nodes is valid if each of them is. -/
theorem validateSteps_eq_ok [Quantity τ] {steps : List (Animation τ)} :
    validateSteps steps = .ok () ↔ ∀ step ∈ steps, step.validate = .ok () := by
  induction steps with
  | nil => simp [validateSteps]
  | cons step steps ih =>
    rw [validateSteps, List.forall_mem_cons, ← ih]
    cases h : step.validate with
    | ok u => simp [bind, Except.bind]
    | error v => simp [bind, Except.bind]

/-- The animation of a valid query is valid. -/
theorem Animation.validate_of_validate_query [Quantity τ] {q : Selection}
    {animation : Animation τ} {options : Option (Options τ)}
    (h : (Animation.query q animation options).validate = .ok ()) :
    animation.validate = .ok () := by
  rw [Animation.validate] at h
  split at h
  · exact h
  · cases h

/-! ### Nodes -/

mutual

/-- The nodes that are compiled with a tree, itself included. -/
def Animation.nodes : Animation τ → List (Animation τ)
  | .sequence steps options => .sequence steps options :: nodesOf steps
  | .group steps options => .group steps options :: nodesOf steps
  | .reference animation options => .reference animation options :: animation.nodes
  | .animateRef animation defaults options =>
    .animateRef animation defaults options :: animation.nodes
  | .query selection animation options => .query selection animation options :: animation.nodes
  | .stagger timing animation => .stagger timing animation :: animation.nodes
  | leaf => [leaf]

/-- The same for several trees. -/
def nodesOf : List (Animation τ) → List (Animation τ)
  | [] => []
  | step :: steps => step.nodes ++ nodesOf steps

end

/-- What holds of all nodes of several trees holds of all nodes of each. -/
theorem forall_mem_nodesOf {P : Animation τ → Prop} {steps : List (Animation τ)} :
    (∀ node ∈ nodesOf steps, P node) ↔ ∀ step ∈ steps, ∀ node ∈ step.nodes, P node := by
  induction steps with
  | nil => simp [nodesOf]
  | cons step steps ih =>
    rw [nodesOf, List.forall_mem_append, List.forall_mem_cons, ih]

theorem Animation.mem_nodes_self (tree : Animation τ) : tree ∈ tree.nodes := by
  cases tree <;> exact List.mem_cons_self

/-- The nodes of a valid tree are valid. -/
theorem Animation.validate_of_mem_nodes [Quantity τ] {tree : Animation τ}
    (h : tree.validate = .ok ()) : ∀ node ∈ tree.nodes, node.validate = .ok () := by
  -- on the tree; to validate a node is to validate what is inside it
  induction tree using Animation.induct with
  | sequence steps options ih =>
    refine List.forall_mem_cons.2 ⟨h, forall_mem_nodesOf.2 fun step hstep => ?_⟩
    exact ih step hstep (validateSteps_eq_ok.1 h step hstep)
  | group steps options ih =>
    refine List.forall_mem_cons.2 ⟨h, forall_mem_nodesOf.2 fun step hstep => ?_⟩
    exact ih step hstep (validateSteps_eq_ok.1 h step hstep)
  | reference animation options ih => exact List.forall_mem_cons.2 ⟨h, ih h⟩
  | animateRef animation defaults options ih => exact List.forall_mem_cons.2 ⟨h, ih h⟩
  | query selection animation options ih =>
    exact List.forall_mem_cons.2 ⟨h, ih (validate_of_validate_query h)⟩
  | stagger timing animation ih => exact List.forall_mem_cons.2 ⟨h, ih h⟩
  | _ => simpa [Animation.nodes] using h

/-- The styles of a node itself. -/
def Animation.styleSteps : Animation τ → List (StyleStep τ)
  | .animate _ (.style step) => [step]
  | .animate _ (.keyframes steps) => steps
  | .keyframes steps => steps
  | .style step => [step]
  | _ => []

/-! ### Options for delegated animations -/

mutual

/-- The options with which the compiled part of a tree leaves room for animations that
elements already have. -/
def Animation.childOptions : Animation τ → List (Options τ)
  | .sequence steps _ => childOptionsOf steps
  | .group steps _ => childOptionsOf steps
  | .reference animation _ => animation.childOptions
  | .animateChild options => [options.getD .none]
  | .animateRef animation _ _ => animation.childOptions
  | .query _ animation _ => animation.childOptions
  | .stagger _ animation => animation.childOptions
  | _ => []

/-- The same for several trees. -/
def childOptionsOf : List (Animation τ) → List (Options τ)
  | [] => []
  | step :: steps => step.childOptions ++ childOptionsOf steps

end

theorem mem_childOptionsOf {o : Options τ} {steps : List (Animation τ)} :
    o ∈ childOptionsOf steps ↔ ∃ step ∈ steps, o ∈ step.childOptions := by
  induction steps with
  | nil => simp [childOptionsOf]
  | cons step steps ih => simp [childOptionsOf, ih]

end Choreography
