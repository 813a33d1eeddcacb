/-
Choreography/Proofs/Visit.lean

Which nodes a run comes to, and in which walks.

`Visit setting tree w node v` says that whoever compiles `tree` in the walk `w` compiles
`node` in the walk `v` on the way.  The relation follows the tree: a step of a sequence is
compiled where the steps before it have led, a branch of a group in the scope that is
opened for it, and so on.

The node's part of the run lies between what came before and what comes after it: its
walk continues the outer one, and the outer one continues what the node has made of it
(`Visit.precedes`, `Visit.follows`).  "Continues" is meant of what the run as a whole has
produced, the score and the diagnostics, and not of the scope (`Walk.Precedes`).

What happens after the node is made of effects and of returns to scopes from before it.  A
relation that holds of these therefore holds between what the node and what the tree has led
to (`Visit.resumes`).
-/
import Choreography.Proofs.Effect.Nodes
import Choreography.Compile.Run

namespace Choreography

variable {τ : Type} [Quantity τ]

namespace Walk

/-! ### One walk after another -/

/-- What a walk has produced is there in a later one, and was added to by operations. -/
structure Precedes (w w' : Walk τ) : Prop where
  operations : ∃ ops : List (Operation τ), w'.score = w.score.performAll ops
  diagnostics : w.diagnostics <+: w'.diagnostics

namespace Precedes

variable {w w₁ w₂ : Walk τ}

theorem refl (w : Walk τ) : Precedes w w := ⟨⟨[], rfl⟩, List.prefix_refl _⟩

theorem trans (h : Precedes w w₁) (h' : Precedes w₁ w₂) : Precedes w w₂ where
  operations := by
    obtain ⟨ops, hs⟩ := h.operations
    obtain ⟨ops', hs'⟩ := h'.operations
    exact ⟨ops ++ ops', by rw [Score.performAll_append, ← hs, hs']⟩
  diagnostics := h.diagnostics.trans h'.diagnostics

/-- The scope does not matter. -/
theorem of_eq (hs : w₁.score = w.score) (hd : w₁.diagnostics = w.diagnostics) : Precedes w w₁ :=
  ⟨⟨[], hs⟩, hd ▸ List.prefix_refl _⟩

/-- To leave a scope takes back nothing. -/
theorem leave (scope : Scope τ) (inner : Walk τ) : Precedes inner (Walk.leave scope inner) :=
  .of_eq rfl rfl

theorem enter (w : Walk τ) (options : Option (Options τ)) (element : ElementId) :
    Precedes w (w.enter options element) :=
  ⟨⟨[.fork w.scope.timeline element none], enter_score w options element⟩,
    enter_diagnostics w options element⟩

theorem length_le (h : Precedes w w₁) :
    w.score.timelines.length ≤ w₁.score.timelines.length := by
  obtain ⟨ops, hs⟩ := h.operations
  rw [hs]
  exact Score.length_timelines_performAll _ ops

theorem owner_eq (h : Precedes w w₁) {id : TimelineId} (hid : id < w.score.timelines.length) :
    (w₁.score.timeline id).owner = (w.score.timeline id).owner := by
  obtain ⟨ops, hs⟩ := h.operations
  rw [hs]
  exact Score.owner_performAll ops hid

/-- Entries are only added, at the end. -/
theorem order_prefix (h : Precedes w w₁) : w.score.order <+: w₁.score.order := by
  obtain ⟨ops, hs⟩ := h.operations
  rw [hs]
  exact Score.order_prefix_performAll _ ops

/-- Without diagnostics in the end there were none before. -/
theorem clean (h : Precedes w w₁) (hc : w₁.diagnostics = []) : w.diagnostics = [] :=
  List.prefix_nil.1 (hc ▸ h.diagnostics)

end Precedes

theorem Effect.precedes {w w' : Walk τ} (h : Effect w w') : Precedes w w' where
  operations := by
    obtain ⟨ops, -, hs⟩ := h.operations
    exact ⟨ops, hs⟩
  diagnostics := h.diagnostics

/-- The entries that a later walk has and this one has not. -/
def registered (w w' : Walk τ) : List (Entry τ) := w'.score.order.drop w.score.order.length

/-- What is registered in two parts of a run is registered in one. -/
theorem registered_trans {w w₁ w₂ : Walk τ} (h : Precedes w w₁) (h' : Precedes w₁ w₂) :
    w.registered w₂ = w.registered w₁ ++ w₁.registered w₂ := by
  obtain ⟨xs, hxs⟩ := h.order_prefix
  obtain ⟨ys, hys⟩ := h'.order_prefix
  rw [registered, registered, registered, ← hys, ← hxs]
  simp

/-! ### Opening walks -/

/-- Does steps one after another. -/
def follow (bodies : List (Body τ)) (w : Walk τ) : Walk τ :=
  bodies.foldl (fun w body => body w) w

omit [Quantity τ] in
/-- Steps are done one after another. -/
theorem follow_append (xs ys : List (Body τ)) (w : Walk τ) :
    w.follow (xs ++ ys) = (w.follow xs).follow ys := by
  simp [follow]

theorem branches_append (options : Option (Options τ)) (xs ys : List (Body τ)) (furthest : τ)
    (w : Walk τ) :
    branches options (xs ++ ys) furthest w =
      let (w₁, furthest₁, ids₁) := branches options xs furthest w
      let (w₂, furthest₂, ids₂) := branches options ys furthest₁ w₁
      (w₂, furthest₂, ids₁ ++ ids₂) := by
  induction xs generalizing furthest w with
  | nil => rfl
  | cons x xs ih => simp only [List.cons_append, branches, ih]

theorem matchesFrom_append (options : Option (Options τ)) (body : Body τ)
    (xs ys : List ElementId) (index : Nat) (furthest : τ) (self : Option TimelineId)
    (w : Walk τ) :
    matchesFrom options body (xs ++ ys) index furthest self w =
      let (w₁, furthest₁, self₁) := matchesFrom options body xs index furthest self w
      matchesFrom options body ys (index + xs.length) furthest₁ self₁ w₁ := by
  induction xs generalizing index furthest self w with
  | nil => rfl
  | cons x xs ih =>
    simp only [List.cons_append, matchesFrom, ih, List.length_cons]
    rw [Nat.add_right_comm index 1, Nat.add_assoc index]

/-- The walk in which the next branch of a group runs, when some are done. -/
def atBranch (options : Option (Options τ)) (done : List (Body τ)) (w : Walk τ) : Walk τ :=
  (branches options done w.currentTime w).1.openBranch options

/-- The walk from which the next match of a query starts, when some are done. -/
def beforeMatch (setting : Setting τ) (body : Body τ) (q : Selection)
    (options : Option (Options τ)) (done : List ElementId) (w : Walk τ) : Walk τ :=
  (matchesFrom options body done 0 w.currentTime none
    (w.openQuery q (setting.select w.scope.element q) options)).1

/-- The walk in which the animation of a stagger runs. -/
def atStagger (timing : Timing τ) (w : Walk τ) : Walk τ :=
  match w.scope.outer with
  | none => w.report [.staggerOutsideQuery]
  | some outer => w.openStagger timing outer

end Walk

/-! ### Visits -/

open Walk in
/-- Compiling a tree in a walk comes to a node in a walk. -/
inductive Visit (setting : Setting τ) : Animation τ → Walk τ → Animation τ → Walk τ → Prop
  | here (tree : Animation τ) (w : Walk τ) : Visit setting tree w tree w
  | step {pre post : List (Animation τ)} {step : Animation τ} {options : Option (Options τ)}
      {w : Walk τ} {node : Animation τ} {v : Walk τ} :
      Visit setting step ((w.openSequence options).follow (bodies setting pre)) node v →
        Visit setting (.sequence (pre ++ step :: post) options) w node v
  | branch {pre post : List (Animation τ)} {step : Animation τ} {options : Option (Options τ)}
      {w : Walk τ} {node : Animation τ} {v : Walk τ} :
      Visit setting step (w.atBranch options (bodies setting pre)) node v →
        Visit setting (.group (pre ++ step :: post) options) w node v
  | reference {animation : Animation τ} {options : Option (Options τ)} {w : Walk τ}
      {node : Animation τ} {v : Walk τ} :
      Visit setting animation (w.update true options) node v →
        Visit setting (.reference animation options) w node v
  | use {animation : Animation τ} {defaults options : Option (Options τ)} {w : Walk τ}
      {node : Animation τ} {v : Walk τ} :
      Visit setting animation ((w.openUse defaults options).update true defaults) node v →
        Visit setting (.animateRef animation defaults options) w node v
  | match {q : Selection} {animation : Animation τ} {options : Option (Options τ)} {w : Walk τ}
      {pre post : List ElementId} {element : ElementId} {node : Animation τ} {v : Walk τ}
      (selected : setting.select w.scope.element q = pre ++ element :: post) :
      Visit setting animation ((w.beforeMatch setting (animation.body setting) q options
        pre).openMatch options element pre.length) node v →
        Visit setting (.query q animation options) w node v
  | stagger {timing : Timing τ} {animation : Animation τ} {w : Walk τ} {node : Animation τ}
      {v : Walk τ} :
      Visit setting animation (w.atStagger timing) node v →
        Visit setting (.stagger timing animation) w node v

namespace Walk

variable {setting : Setting τ}

/-- The effects of several trees. -/
theorem effect_of_mem_bodies {steps : List (Animation τ)} :
    ∀ b ∈ bodies setting steps, ∀ w, Effect w (b w) :=
  Effect.compositional.of_mem_bodies

theorem effect_follow {bodies : List (Body τ)} (hb : ∀ b ∈ bodies, ∀ w, Effect w (b w))
    (w : Walk τ) : Effect w (w.follow bodies) :=
  Effect.compositional.foldl hb w

theorem bodies_append (xs ys : List (Animation τ)) :
    bodies setting (xs ++ ys) = bodies setting xs ++ bodies setting ys := by
  rw [bodies_eq_map, bodies_eq_map, bodies_eq_map, List.map_append]

/-! ### What a visited walk continues -/

/-- To open a sequence continues the walk. -/
theorem precedes_openSequence (options : Option (Options τ)) (w : Walk τ) :
    Precedes w (w.openSequence options) := by
  unfold openSequence
  cases scoping options with
  | none => exact .refl w
  | some o => exact (Precedes.enter w _ _).trans (Effect.compositional.openScoped o w).precedes

theorem valid_openSequence (options : Option (Options τ)) {w : Walk τ} (h : w.Valid) :
    (w.openSequence options).Valid := by
  unfold openSequence
  cases scoping options with
  | none => exact h
  | some o => exact (Effect.compositional.openScoped o w).valid (h.enter _ _)

/-- A branch of a group continues the walk, after the branches before it. -/
theorem precedes_atBranch (options : Option (Options τ)) (done : List (Animation τ))
    (w : Walk τ) : Precedes w (w.atBranch options (bodies setting done)) :=
  have hdone := Effect.compositional.branches effect_of_mem_bodies options w.currentTime w
  (hdone.precedes.trans (.enter _ _ _)).trans (Effect.compositional.delay _ _).precedes

theorem valid_atBranch (options : Option (Options τ)) (done : List (Animation τ)) {w : Walk τ}
    (h : w.Valid) : (w.atBranch options (bodies setting done)).Valid :=
  (Effect.compositional.delay _ _).valid
    (((Effect.compositional.branches effect_of_mem_bodies options _ w).valid h).enter _ _)

/-- The matches before a match have an effect. -/
theorem effect_beforeMatch (animation : Animation τ) (q : Selection)
    (options : Option (Options τ)) (done : List ElementId) (w : Walk τ) :
    Effect w (w.beforeMatch setting (animation.body setting) q options done) :=
  (Effect.compositional.openQuery q _ options w).trans
    (Effect.compositional.matchesFrom (animation.effect setting) options done _ _ _ _)

/-- A match continues the walk from which it starts. -/
theorem precedes_openMatch (options : Option (Options τ)) (element : ElementId) (index : Nat)
    (w : Walk τ) : Precedes w (w.openMatch options element index) :=
  ((Effect.rescope w { w.scope with index := index } rfl rfl).precedes.trans
    (.enter _ options element)).trans (Effect.compositional.delay (delayOf options) _).precedes

theorem valid_openMatch (options : Option (Options τ)) (element : ElementId) (index : Nat)
    {w : Walk τ} (h : w.Valid) : (w.openMatch options element index).Valid :=
  (Effect.compositional.delay _ _).valid
    (((Effect.rescope w { w.scope with index := index } rfl rfl).valid h).enter _ _)

theorem effect_atStagger (timing : Timing τ) (w : Walk τ) : Effect w (w.atStagger timing) := by
  unfold atStagger
  split
  · exact .report w _
  · exact Effect.compositional.openStagger timing _ w

end Walk

/-- The walk in which a node is visited continues the one in which the tree is. -/
theorem Visit.precedes {setting : Setting τ} {tree node : Animation τ} {w v : Walk τ}
    (h : Visit setting tree w node v) : w.Precedes v := by
  -- on the path from the tree to the node
  induction h with
  | here tree w => exact .refl w
  | step _ ih =>
    exact ((Walk.precedes_openSequence _ _).trans
      (Walk.effect_follow Walk.effect_of_mem_bodies _).precedes).trans ih
  | branch _ ih => exact (Walk.precedes_atBranch _ _ _).trans ih
  | reference _ ih => exact (Walk.Effect.compositional.update _ _ _).precedes.trans ih
  | use _ ih =>
    exact ((Walk.Precedes.enter _ _ _).trans
      (Walk.Effect.compositional.openUse _ _ _).precedes).trans ih
  | «match» _ _ ih =>
    exact ((Walk.effect_beforeMatch _ _ _ _ _).precedes.trans
      (Walk.precedes_openMatch _ _ _ _)).trans ih
  | stagger _ ih => exact (Walk.effect_atStagger _ _).precedes.trans ih

/-- Visited walks stand on timelines of their elements. -/
theorem Visit.valid {setting : Setting τ} {tree node : Animation τ} {w v : Walk τ}
    (h : Visit setting tree w node v) (hw : w.Valid) : v.Valid := by
  induction h with
  | here tree w => exact hw
  | step _ ih =>
    exact ih ((Walk.effect_follow Walk.effect_of_mem_bodies _).valid
      (Walk.valid_openSequence _ hw))
  | branch _ ih => exact ih (Walk.valid_atBranch _ _ hw)
  | reference _ ih => exact ih ((Walk.Effect.compositional.update _ _ _).valid hw)
  | use _ ih => exact ih ((Walk.Effect.compositional.openUse _ _ _).valid (hw.enter _ _))
  | «match» _ _ ih =>
    exact ih (Walk.valid_openMatch _ _ _ ((Walk.effect_beforeMatch _ _ _ _ _).valid hw))
  | stagger _ ih => exact ih ((Walk.effect_atStagger _ _).valid hw)

/-- What is visited from a visited node is visited. -/
theorem Visit.trans {setting : Setting τ} {tree node inner : Animation τ} {w v u : Walk τ}
    (h : Visit setting tree w node v) (h' : Visit setting node v inner u) :
    Visit setting tree w inner u := by
  induction h with
  | here tree w => exact h'
  | step _ ih => exact .step (ih h')
  | branch _ ih => exact .branch (ih h')
  | reference _ ih => exact .reference (ih h')
  | use _ ih => exact .use (ih h')
  | «match» selected _ ih => exact .match selected (ih h')
  | stagger _ ih => exact .stagger (ih h')

/-! ### What continues a visited walk -/

namespace Walk

/-- What a relation needs in order to hold between the walk that a node visited in `v` leads
to and the one that the tree around it, compiled in `w`, leads to: to hold of effects, and of
returns to scopes from before the visit. -/
structure Resumes (w v : Walk τ) (R : Walk τ → Walk τ → Prop) : Prop where
  trans : ∀ {w w₁ w₂}, R w w₁ → R w₁ w₂ → R w w₂
  effect : ∀ {w w'}, Effect w w' → R w w'
  leave : ∀ {u : Walk τ} (inner : Walk τ), u.Precedes v → (w.Valid → u.Valid) →
    R inner (leave u.scope inner)

/-- What is produced stays, in returns to scopes as in effects. -/
theorem resumes_precedes (w v : Walk τ) : Resumes w v Precedes :=
  ⟨.trans, Effect.precedes, fun inner _ _ => .leave _ inner⟩

section Resumes

variable {w v : Walk τ} {R : Walk τ → Walk τ → Prop} {body : Body τ}

/-- The rest of the tree may be looked at from further in. -/
theorem Resumes.inner {w₁ : Walk τ} (h : Resumes w v R) (hvalid : w.Valid → w₁.Valid) :
    Resumes w₁ v R :=
  ⟨h.trans, h.effect, fun inner hu hv => h.leave inner hu (hv ∘ hvalid)⟩

/-- Steps end by finishing the keyframe. -/
theorem effect_steps {bodies : List (Body τ)} (hne : bodies ≠ []) (forks : Nat) (u : Walk τ) :
    Effect ((u.follow bodies).edit Scene.flush) (u.steps forks bodies) := by
  simp only [steps, List.isEmpty_iff, if_neg hne]
  split
  · exact effect_renew none _
  · exact .refl _

/-- From the end of its steps to the end of a sequence: its scope may have to be left. -/
theorem Resumes.sequence (h : Resumes w v R) (hw : w.Precedes v) (bodies : List (Body τ))
    (options : Option (Options τ)) :
    R ((w.openSequence options).steps w.scope.forks bodies) (w.sequence bodies options) := by
  refine h.trans ?_ (h.effect (Effect.compositional.after .sequence _))
  split
  · exact h.leave _ hw id
  · exact h.effect (.refl _)

/-- From the end of a branch back to the group. -/
theorem Resumes.branch (h : Resumes w v R) (hw : w.Precedes v) (options : Option (Options τ))
    (furthest : τ) : R (body (w.openBranch options)) (w.branch options body furthest).1 :=
  h.leave _ hw id

/-- The other branches of a group follow. -/
theorem effect_of_branch (setting : Setting τ) (pre post : List (Animation τ))
    (step : Animation τ) (options : Option (Options τ)) (w : Walk τ) :
    ∃ furthest, Effect
      ((branches options (bodies setting pre) w.currentTime w).1.branch options
        (step.body setting) furthest).1
      (w.group (bodies setting (pre ++ step :: post)) options) := by
  refine ⟨(branches options (bodies setting pre) w.currentTime w).2.1, ?_⟩
  refine Effect.trans ?_ (((Effect.compositional.gather _ _).trans (effect_renew _ _)).trans
    (Effect.compositional.after .group _))
  rw [bodies_append, branches_append]
  exact Effect.compositional.branches effect_of_mem_bodies options _ _

/-- From the end of what is referred to, through two scopes, to the end of its use. -/
theorem Resumes.animateRef (h : Resumes w v R) (hw : w.Precedes v)
    (defaults options : Option (Options τ)) :
    R (body ((w.openUse defaults options).update true defaults))
      (w.animateRef body defaults options) := by
  let inner := (w.openUse defaults options).reference body defaults
  -- the inner one is that of the reference, which is only noted
  have hinner : R _ inner := h.effect (Effect.compositional.after .reference _)
  exact h.trans (h.trans hinner (h.leave inner hw id)) (h.effect ((effect_renew
    (some inner.currentTime) _).trans (Effect.compositional.after .animateRef _)))

/-- From the end of a match back to the query. -/
theorem Resumes.matched (h : Resumes w v R) (hw : w.Precedes v) (options : Option (Options τ))
    (element : ElementId) (index : Nat) (furthest : τ) :
    R (body (w.openMatch options element index))
      (w.matched options body element index furthest).1 :=
  h.trans (h.effect (Effect.change _ .flush)) (h.leave _ hw id)

/-- The other matches of a query follow. -/
theorem effect_of_matched {setting : Setting τ} {w : Walk τ} {q : Selection}
    {pre post : List ElementId} {element : ElementId}
    (selected : setting.select w.scope.element q = pre ++ element :: post)
    (animation : Animation τ) (options : Option (Options τ)) :
    ∃ furthest, Effect
      ((w.beforeMatch setting (animation.body setting) q options pre).matched options
        (animation.body setting) element pre.length furthest).1
      (w.query setting (animation.body setting) q options) := by
  refine ⟨(matchesFrom options (animation.body setting) pre 0 w.currentTime none
    (w.openQuery q (setting.select w.scope.element q) options)).2.1, ?_⟩
  refine Effect.trans ?_ ((Effect.compositional.closeQuery _ _ _).trans
    (Effect.compositional.after .query _))
  simp only [beforeMatch]
  rw [selected, matchesFrom_append, Nat.zero_add]
  exact Effect.compositional.matchesFrom (animation.effect setting) options post _ _ _ _

/-- From the end of its animation to the end of a stagger. -/
theorem Resumes.stagger (h : Resumes w v R) (timing : Timing τ) :
    R (body (w.atStagger timing)) (w.stagger body timing) := by
  unfold atStagger Walk.stagger
  cases w.scope.outer with
  | none => exact h.effect (Effect.compositional.after .stagger _)
  | some outer =>
    exact h.effect ((Effect.compositional.after .stagger _).trans (.rescope _ _ rfl rfl))

end Resumes

end Walk

/-- From what compiling the node has led to, effects and returns to outer scopes lead to what
compiling the tree leads to. -/
theorem Visit.resumes {setting : Setting τ} {tree node : Animation τ} {w v : Walk τ}
    {R : Walk τ → Walk τ → Prop} (h : Visit setting tree w node v) (hR : Walk.Resumes w v R) :
    R (node.body setting v) (tree.body setting w) := by
  -- on the path: each case goes from the part in which the node is to the end of the whole
  induction h with
  | here tree w => exact hR.effect (.refl _)
  | @step pre post step options w node v hin ih =>
    have hsteps : ∀ b ∈ bodies setting pre, ∀ w, Walk.Effect w (b w) := Walk.effect_of_mem_bodies
    have hopen := Walk.precedes_openSequence options w
    have hpre := Walk.effect_follow hsteps (w.openSequence options)
    have hnode := ih (hR.inner fun hw => hpre.valid (Walk.valid_openSequence options hw))
    -- the other steps follow
    have hpost : Walk.Effect (step.body setting ((w.openSequence options).follow
        (bodies setting pre))) ((w.openSequence options).steps w.scope.forks
          (bodies setting (pre ++ step :: post))) := by
      refine Walk.Effect.trans ?_ (Walk.effect_steps (by simp [bodies_eq_map]) _ _)
      rw [Walk.bodies_append, Walk.follow_append]
      exact (Walk.effect_follow Walk.effect_of_mem_bodies _).trans (.change _ .flush)
    exact hR.trans (hR.trans hnode (hR.effect hpost))
      (hR.sequence (hopen.trans (hpre.precedes.trans hin.precedes)) _ _)
  | @branch pre post step options w node v hin ih =>
    have hdone : Walk.Effect w (Walk.branches options (bodies setting pre) w.currentTime w).1 :=
      Walk.Effect.compositional.branches Walk.effect_of_mem_bodies options _ w
    have hopen : Walk.Precedes (Walk.branches options (bodies setting pre) w.currentTime w).1 v :=
      ((Walk.Precedes.enter _ _ _).trans
        (Walk.Effect.compositional.delay _ _).precedes).trans hin.precedes
    obtain ⟨furthest, hrest⟩ := Walk.effect_of_branch setting pre post step options w
    exact hR.trans (hR.trans (ih (hR.inner (Walk.valid_atBranch _ _)))
      ((hR.inner hdone.valid).branch hopen options furthest)) (hR.effect hrest)
  | reference _ ih =>
    exact hR.trans (ih (hR.inner (Walk.Effect.compositional.update _ _ _).valid))
      (hR.effect (Walk.Effect.compositional.after .reference _))
  | @use animation defaults options w node v hin ih =>
    have huse := Walk.Effect.compositional.openUse defaults options w
    exact hR.trans (ih (hR.inner fun hw => huse.valid (hw.enter _ _)))
      (hR.animateRef (((Walk.Precedes.enter _ _ _).trans huse.precedes).trans hin.precedes)
        defaults options)
  | @«match» q animation options w pre post element node v selected hin ih =>
    have hdone : Walk.Effect w (w.beforeMatch setting (animation.body setting) q options pre) :=
      Walk.effect_beforeMatch animation q options pre w
    have hopen := (Walk.precedes_openMatch options element pre.length _).trans hin.precedes
    obtain ⟨furthest, hrest⟩ := Walk.effect_of_matched selected animation options
    exact hR.trans (hR.trans
      (ih (hR.inner fun hw => Walk.valid_openMatch _ _ _ (hdone.valid hw)))
      ((hR.inner hdone.valid).matched hopen options element pre.length furthest))
      (hR.effect hrest)
  | @stagger timing animation w node v _ ih =>
    exact hR.trans (ih (hR.inner (Walk.effect_atStagger timing w).valid)) (hR.stagger timing)

/-- What compiling the tree leads to continues what compiling the node has led to. -/
theorem Visit.follows {setting : Setting τ} {tree node : Animation τ} {w v : Walk τ}
    (h : Visit setting tree w node v) : (node.body setting v).Precedes (tree.body setting w) :=
  h.resumes (Walk.resumes_precedes w v)

end Choreography
