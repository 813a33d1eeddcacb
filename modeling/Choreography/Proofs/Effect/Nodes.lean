/-
Choreography/Proofs/Effect/Nodes.lean

The effect of nodes.

Elementary steps have an effect, and effects compose (`Effect.compositional`), so every node
and every part of a node has one.  The branches of a group and the matches of a query run in
scopes of their own; they spare the timeline of the outer scope.

Main result: `Animation.effect`.
-/
import Choreography.Proofs.Compositional
import Choreography.Proofs.Effect

namespace Choreography

variable {τ : Type} [Quantity τ]

namespace Walk

/-! ### Elementary steps -/

/-- To go on in a new timeline is to take the next one. -/
theorem renew_timeline (at? : Option τ) (w : Walk τ) :
    (w.renew at?).scope.timeline = w.score.timelines.length :=
  Score.fork_fst w.score w.scope.timeline w.scope.element at?

theorem timeline_renew (at? : Option τ) (w : Walk τ) :
    ∃ lineage own, (w.renew at?).timeline = .begin lineage w.scope.element
      (w.score.forkTime w.scope.timeline at?) own := by
  rw [timeline, renew_timeline]
  exact Score.timeline_fork_self w.score w.scope.timeline w.scope.element at?

theorem renew_order (at? : Option τ) (w : Walk τ) :
    (w.renew at?).score.order = w.score.order ++ [.timeline w.score.timelines.length] :=
  Score.order_fork w.score w.scope.timeline w.scope.element at?

/-- The scope stands at the beginning of its new timeline. -/
theorem begins_renew (at? : Option τ) (w : Walk τ) :
    (w.renew at?).Begins (w.score.forkTime w.scope.timeline at?) where
  timeline := by
    rw [renew_timeline]
    show _ < (w.score.fork w.scope.timeline w.scope.element at?).2.timelines.length
    rw [Score.length_timelines_fork]
    exact Nat.lt_succ_self _
  new := by
    obtain ⟨lineage, own, hnew⟩ := timeline_renew at? w
    exact ⟨lineage, w.scope.element, own, hnew⟩

/-- A fork of the timeline of the scope is an effect. -/
theorem effect_renew (at? : Option τ) (w : Walk τ) : Effect w (w.renew at?) where
  operations := ⟨[.fork w.scope.timeline w.scope.element at?], by
    intro op hop id hid
    rw [List.mem_singleton] at hop
    subst hop
    exact .inl (Option.some.inj hid).symm, rfl⟩
  diagnostics := List.prefix_refl _
  element := rfl
  timeline := .inr (Nat.le_of_eq (renew_timeline at? w).symm)
  valid := by
    intro hv
    obtain ⟨lineage, own, he⟩ :=
      Score.timeline_fork_self w.score w.scope.timeline w.scope.element at?
    refine ⟨?_, ?_, Score.listed_perform (.fork w.scope.timeline w.scope.element at?) hv.listed⟩
    · show (w.score.fork w.scope.timeline w.scope.element at?).1 <
        (w.score.fork w.scope.timeline w.scope.element at?).2.timelines.length
      rw [Score.fork_fst, Score.length_timelines_fork]
      exact Nat.lt_succ_self _
    · show ((w.score.fork w.scope.timeline w.scope.element at?).2.timeline
        (w.score.fork w.scope.timeline w.scope.element at?).1).element = w.scope.element
      rw [Score.fork_fst, he]
      rfl

/-- Taking note of what another timeline wrote. -/
theorem effect_merge (source : TimelineId) (w : Walk τ) :
    Effect w { w with score := w.score.merge w.scope.timeline source } :=
  .perform (.merge w.scope.timeline source) fun _ hid => (Option.some.inj hid).symm

/-- A merge moves no clock, of any timeline. -/
theorem skeleton_merge (into source : TimelineId) (s : Score τ) (id : TimelineId) :
    ((s.merge into source).timeline id).skeleton = (s.timeline id).skeleton := by
  unfold Score.merge
  split
  · rfl
  · exact Score.timeline_edit_induct (P := fun t => t.skeleton = (s.timeline id).skeleton)
      (fun he => (Scene.skeleton_merge _ _).trans he) rfl

theorem order_merge (into source : TimelineId) (s : Score τ) :
    (s.merge into source).order = s.order := by
  unfold Score.merge
  split <;> rfl

/-- To gather timelines takes no time. -/
theorem currentTime_gather (ids : List TimelineId) (w : Walk τ) :
    (w.gather ids).currentTime = w.currentTime := by
  induction ids generalizing w with
  | nil => rfl
  | cons id ids ih =>
    exact (ih { w with score := w.score.merge w.scope.timeline id }).trans
      (Timeline.currentTime_eq_of_skeleton_eq (skeleton_merge _ _ _ _))

/-- Elementary steps have effects, which compose. -/
theorem Effect.compositional : Compositional (Effect : Walk τ → Walk τ → Prop) where
  refl := .refl
  trans := .trans
  change := .change
  merge := effect_merge
  place p _ := .perform (.place p) fun _ hid => by cases hid
  rescope := .rescope
  report := .report
  renew := effect_renew
  leave hs hd ht h := .leave hs hd ht h

/-! ### Branches and matches -/

/-- The walk in which a branch of a group is done, before its scope is left. -/
def insideBranch (options : Option (Options τ)) (body : Body τ) (w : Walk τ) : Walk τ :=
  body (w.openBranch options)

/-- The walk from which the scope of a match is entered. -/
def indexed (index : Nat) (w : Walk τ) : Walk τ :=
  { w with scope := { w.scope with index := index } }

/-- The walk in which a match of a query is done, before its scope is left. -/
def insideMatch (options : Option (Options τ)) (body : Body τ) (element : ElementId)
    (index : Nat) (w : Walk τ) : Walk τ :=
  (body (w.openMatch options element index)).edit Scene.flush

/-- In its scope, a branch has an effect. -/
theorem effect_insideBranch {body : Body τ} (hb : ∀ w, Effect w (body w))
    (options : Option (Options τ)) (w : Walk τ) :
    Effect (w.enter options w.scope.element) (w.insideBranch options body) :=
  (Effect.compositional.delay (delayOf options) _).trans (hb _)

/-- So has a match, after which the keyframe is finished. -/
theorem effect_insideMatch {body : Body τ} (hb : ∀ w, Effect w (body w))
    (options : Option (Options τ)) (element : ElementId) (index : Nat) (w : Walk τ) :
    Effect ((w.indexed index).enter options element) (w.insideMatch options body element index) :=
  ((Effect.compositional.delay (delayOf options) _).trans (hb _)).trans (.change _ .flush)

/-- One match, and then the others. -/
theorem matchesFrom_cons (options : Option (Options τ)) (body : Body τ) (element : ElementId)
    (elements : List ElementId) (index : Nat) (furthest : τ) (self : Option TimelineId)
    (w : Walk τ) :
    matchesFrom options body (element :: elements) index furthest self w =
      matchesFrom options body elements (index + 1)
        (Quantity.later furthest (w.insideMatch options body element index).currentTime)
        (if element = w.scope.element then some w.score.timelines.length else self)
        (leave w.scope (w.insideMatch options body element index)) := by
  -- the timeline of the match is the next one, for a delay does not change the scope
  have hline : (w.openMatch options element index).scope.timeline = w.score.timelines.length := by
    have hentered : (w.openMatch options element index).scope =
        ((w.indexed index).enter options element).scope := by
      unfold openMatch Walk.delay
      split <;> rfl
    rw [hentered, enter_timeline]
    rfl
  rw [← hline]
  rfl

/-- Branches spare the timeline of the group, and end on timelines that were entered since. -/
theorem spared_branches {bodies : List (Body τ)} (hb : ∀ b ∈ bodies, ∀ w, Effect w (b w))
    (options : Option (Options τ)) (furthest : τ) {w : Walk τ} (hv : w.Valid) :
    Spared w (branches options bodies furthest w).1 ∧
      ∀ id ∈ (branches options bodies furthest w).2.2, w.score.timelines.length ≤ id := by
  -- on the branches: each is entered from the walk that the one before has spared
  induction bodies generalizing furthest w with
  | nil => exact ⟨.refl w, fun id hid => by cases hid⟩
  | cons body bodies ih =>
    rw [List.forall_mem_cons] at hb
    have hinner := effect_insideBranch hb.1 options w
    have hbranch := Effect.compositional.branch hb.1 options furthest w
    obtain ⟨hspared, hids⟩ := ih hb.2 (w.branch options body furthest).2.1 (hbranch.valid hv)
    refine ⟨(spared_leave hv rfl rfl hinner).trans hspared, ?_⟩
    intro id hid
    rcases List.mem_cons.1 hid with rfl | hid
    · -- a branch ends on the timeline that it was given, or on a later one
      rcases hinner.timeline with he | hge
      · rw [enter_timeline] at he
        exact Nat.le_of_eq he.symm
      · rw [enter_length] at hge
        exact Nat.le_of_succ_le hge
    · exact Nat.le_trans hbranch.length_le (hids id hid)

/-- So do matches with the timeline of the query. -/
theorem spared_matchesFrom {body : Body τ} (hb : ∀ w, Effect w (body w))
    (options : Option (Options τ)) (elements : List ElementId) (index : Nat) (furthest : τ)
    (self : Option TimelineId) {w : Walk τ} (hv : w.Valid) :
    Spared w (matchesFrom options body elements index furthest self w).1 := by
  induction elements generalizing index furthest self w with
  | nil => exact .refl w
  | cons element elements ih =>
    have hmatched : Spared w (w.matched options body element index furthest).1 :=
      spared_leave (u := w.indexed index) hv rfl rfl
        (effect_insideMatch hb options element index w)
    exact hmatched.trans
      (ih _ _ _ ((Effect.compositional.matched hb options element index furthest w).valid hv))

/-- Before its matches a query only holds styles. -/
theorem skeleton_openQuery (q : Selection) (elements : List ElementId)
    (options : Option (Options τ)) (w : Walk τ) :
    (w.openQuery q elements options).timeline.skeleton = w.timeline.skeleton := by
  have hhold : (w.holdStyles (delayOf options)).timeline.skeleton = w.timeline.skeleton := by
    unfold holdStyles
    split
    · exact Score.timeline_edit_induct (P := fun t => t.skeleton = w.timeline.skeleton)
        (fun he => (Scene.skeleton_snapshot _).trans he) rfl
    · rfl
  rw [← hhold]
  simp only [openQuery]
  split <;> rfl

theorem currentTime_openQuery (q : Selection) (elements : List ElementId)
    (options : Option (Options τ)) (w : Walk τ) :
    (w.openQuery q elements options).currentTime = w.currentTime :=
  Timeline.currentTime_eq_of_skeleton_eq (skeleton_openQuery q elements options w)

end Walk

/-! ### Trees -/

/-- What a tree does to a walk is an effect. -/
theorem Animation.effect (setting : Setting τ) (tree : Animation τ) (w : Walk τ) :
    Walk.Effect w (tree.body setting w) :=
  Walk.Effect.compositional.body setting tree w

end Choreography
