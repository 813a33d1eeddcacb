/-
Choreography/Proofs/Overlap.lean

When the steps of a sequence overlap.

A step begins where the clock of the sequence stands when the steps before it are done.
By then everything that they have entered is over, unless it belongs to a sequence with
options: such a sequence runs in a scope of its own and does not move the clock of the
scope around it (`Walk.currentTime_sequence_of_scoping`).  So two steps overlap if and
only if such a sequence inside the first one goes on for longer than the first one itself
(`overlap_iff`), and this happens (`overlapping`).
-/
import Choreography.Animation.Build
import Choreography.Proofs.Progress.Nodes
import Choreography.Proofs.Run

namespace Choreography

variable {D : Placement ℚ → Prop} {setting : Setting ℚ}

/-! ### Visited walks -/

namespace Walk

/-- A walk that continues another one, possibly in a scope within, with its clocks in
order. -/
structure Opens (D : Placement ℚ → Prop) (w u : Walk ℚ) : Prop where
  precedes : Precedes w u
  valid : w.Valid → u.Valid
  clocked : w.Valid → w.score.Clocked D → u.diagnostics = [] → u.score.Clocked D

theorem Opens.trans {w u v : Walk ℚ} (h : Opens D w u) (h' : Opens D u v) : Opens D w v where
  precedes := h.precedes.trans h'.precedes
  valid := h'.valid ∘ h.valid
  clocked hv hc hclean :=
    h'.clocked (h.valid hv) (h.clocked hv hc (h'.precedes.clean hclean)) hclean

theorem Reaches.opens {S : Entry ℚ → Prop} {w u : Walk ℚ} {f : ℚ} (h : Reaches D S w u f) :
    Opens D w u :=
  ⟨h.effect.precedes, h.effect.valid, fun hv hc hclean => (h.spans hv hc hclean).clocked⟩

theorem opens_enter (w : Walk ℚ) (options : Option (Options ℚ)) (element : ElementId) :
    Opens D w (w.enter options element) :=
  ⟨.enter w options element, fun hv => hv.enter options element,
    fun _ hc _ => clocked_enter hc options element⟩

theorem opens_openSequence (options : Option (Options ℚ)) (w : Walk ℚ) :
    Opens D w (w.openSequence options) := by
  unfold openSequence
  -- without options there is no scope to open
  cases scoping options with
  | none => exact (proceeds_refl (S := fun _ => True) w).opens
  | some o => exact (opens_enter w _ _).trans (proceeds_openScoped (S := fun _ => True) o w).opens

theorem opens_openBranch (options : Option (Options ℚ)) (w : Walk ℚ) :
    Opens D w (w.openBranch options) :=
  (opens_enter w options w.scope.element).trans
    (proceeds_delay (S := fun _ => True) (delayOf options) _).opens

theorem opens_openMatch (options : Option (Options ℚ)) (element : ElementId) (index : Nat)
    (w : Walk ℚ) : Opens D w (w.openMatch options element index) := by
  -- the index of the match is set first, which takes no time
  have hscope : Proceeds D (fun _ => True) w { w with scope := { w.scope with index := index } } :=
    proceeds_of_score_eq (.rescope _ _ rfl rfl) rfl rfl
  exact (hscope.opens.trans (opens_enter _ options element)).trans
    (proceeds_openMatch (S := fun _ => True) options element index w).opens

end Walk

/-- With nothing asserted of what is entered, nothing has to be left out of account. -/
theorem Animation.Tame.proceeds {tree : Animation ℚ} (h : tree.Tame setting D) (w : Walk ℚ) :
    Walk.Proceeds D (fun _ => True) w (tree.body setting w) :=
  tree.proceeds h fun _ _ _ _ _ _ _ => trivial

/-- Nodes that are visited in a tame tree are tame, and the clocks are in order where they
are visited. -/
theorem Visit.opens {tree node : Animation ℚ} {w v : Walk ℚ} (h : Visit setting tree w node v)
    (ht : tree.Tame setting D) : node.Tame setting D ∧ Walk.Opens D w v := by
  -- on the path to the node: what is before it on each level has gone forward
  induction h with
  | here tree w => exact ⟨ht, (Walk.proceeds_refl (S := fun _ => True) w).opens⟩
  | @step pre post step options w node v _ ih =>
    obtain ⟨hnode, hinner⟩ := ih (ht.steps rfl rfl (by simp))
    -- the steps before it
    have hfollow : Walk.Proceeds D (fun _ => True) (w.openSequence options)
        ((w.openSequence options).follow (bodies setting pre)) := by
      refine Walk.proceeds_follow ?_
      rintro pre' s post' rfl
      exact Animation.Tame.proceeds (ht.steps rfl rfl (by simp)) _
    exact ⟨hnode, ((Walk.opens_openSequence options w).trans hfollow.opens).trans hinner⟩
  | @branch pre post step options w node v _ ih =>
    obtain ⟨hnode, hinner⟩ := ih (ht.steps rfl rfl (by simp))
    -- the branches before it
    have hbranches : Walk.Reaches D (fun _ => True) w
        (Walk.branches options (bodies setting pre) w.currentTime w).1
        (Walk.branches options (bodies setting pre) w.currentTime w).2.1 := by
      refine Walk.reaches_branches le_rfl ?_
      rintro pre' s post' rfl
      exact Animation.Tame.proceeds (ht.steps rfl rfl (by simp)) _
    exact ⟨hnode, (hbranches.opens.trans (Walk.opens_openBranch options _)).trans hinner⟩
  | @reference animation options w node v _ ih =>
    obtain ⟨hnode, hinner⟩ := ih (ht.inner ht.valid fun _ ho => ho)
    exact ⟨hnode, (Walk.proceeds_update (S := fun _ => True) true options w).opens.trans hinner⟩
  | @use animation defaults options w node v _ ih =>
    obtain ⟨hnode, hinner⟩ := ih (ht.inner ht.valid fun _ ho => ho)
    have hopen := Walk.proceeds_openUse (D := D) (S := fun _ => True) defaults options w
    exact ⟨hnode, ((Walk.opens_enter _ _ _).trans hopen.opens).trans hinner⟩
  | @«match» q animation options w pre post element node v selected _ ih =>
    have hanimation : animation.Tame setting D :=
      ht.inner (Animation.validate_of_validate_query ht.valid) fun _ ho => ho
    obtain ⟨hnode, hinner⟩ := ih hanimation
    -- the matches before it
    have hmatches : Walk.Reaches D (fun _ => True)
        (w.openQuery q (setting.select w.scope.element q) options)
        (w.beforeMatch setting (animation.body setting) q options pre) _ :=
      Walk.reaches_matchesFrom (animation.effect setting)
        (Walk.currentTime_openQuery q _ options w).le fun _ _ _ _ => hanimation.proceeds _
    have hquery := (Walk.proceeds_openQuery (D := D) (S := fun _ => True) q
      (setting.select w.scope.element q) options w).opens
    exact ⟨hnode, ((hquery.trans hmatches.opens).trans (Walk.opens_openMatch _ _ _ _)).trans hinner⟩
  | @stagger timing animation w node v _ ih =>
    obtain ⟨hnode, hinner⟩ := ih (ht.inner ht.valid fun _ ho => ho)
    exact ⟨hnode, (Walk.proceeds_atStagger (S := fun _ => True) timing w).opens.trans hinner⟩

/-! ### Runs -/

section Runs

variable {host : Host} {root : ElementId} {tree : Animation ℚ} {setup : Setup ℚ}
  {delegated : InstructionMap ℚ}

/-- The walk with which a run starts, if nothing is reported. -/
theorem Walk.clocked_start (h : (Walk.start root setup []).diagnostics = []) :
    (Walk.start root setup []).score.Clocked D := by
  have hempty : (Score.empty : Score ℚ).Clocked D :=
    ⟨fun _ => Timeline.clocked_begin _ _ _ le_rfl, fun _ hp => by cases hp⟩
  -- the first lineage is counted before its timeline is entered
  have hlineage : ({ Score.empty with lineages := 1 } : Score ℚ).Clocked D :=
    ⟨hempty.timelines, hempty.placed⟩
  have hblank : (Walk.blank root setup []).score.Clocked D :=
    hlineage.enter 0 root le_rfl
  have hstart : Walk.Proceeds D (fun _ => True) (Walk.blank root setup [])
      (Walk.start root setup []) := by
    rw [Walk.start_eq]
    exact (Walk.proceeds_delay _ _).trans (Walk.proceeds_writeAt _ _ _)
  exact (hstart.spans (Walk.valid_blank root setup []) hblank h).clocked

/-- What is known of a node that a clean run visits. -/
theorem Visit.clocked {node : Animation ℚ} {v : Walk ℚ}
    (h : Visit (setup.setting host delegated) tree (.start root setup []) node v)
    (ht : tree.Tame (setup.setting host delegated) D)
    (hclean : (compile host root tree setup delegated).diagnostics = []) :
    node.Tame (setup.setting host delegated) D ∧ v.Valid ∧ v.score.Clocked D ∧
      (node.body (setup.setting host delegated) v).diagnostics = [] := by
  -- a clean end means that nothing was reported at any time before
  have hafter := h.follows.clean (diagnostics_run_of_clean hclean)
  have hbefore := (node.effect (setup.setting host delegated) v).precedes.clean hafter
  have hstart := h.precedes.clean hbefore
  obtain ⟨hnode, hopens⟩ := h.opens ht
  have hvalid := Walk.valid_start root setup []
  exact ⟨hnode, hopens.valid hvalid, hopens.clocked hvalid (Walk.clocked_start hstart) hbefore,
    hafter⟩

/-! ### Overlaps -/

/-- A sequence with options leaves the clock of the scope around it where it stands. -/
theorem Walk.currentTime_sequence_of_scoping {τ : Type} [Quantity τ] {bodies : List (Body τ)}
    (hb : ∀ b ∈ bodies, ∀ w, Walk.Effect w (b w)) {options : Option (Options τ)}
    (ho : (Walk.scoping options).isSome) {w : Walk τ} (hv : w.Valid) :
    (w.sequence bodies options).currentTime = w.currentTime := by
  obtain ⟨o, ho⟩ := Option.isSome_iff_exists.1 ho
  have hinner : Walk.Effect (w.enter (some o) w.scope.element)
      ((w.openSequence options).steps w.scope.forks bodies) := by
    rw [Walk.openSequence, ho]
    exact (Walk.Effect.compositional.openScoped o w).trans (Walk.Effect.compositional.steps _ hb _)
  have hspared := Walk.spared_leave hv rfl rfl hinner
  simp only [Walk.sequence, ho]
  exact hspared.currentTime_eq

/-- Of two consecutive steps of a sequence, all that the first one has entered is over when
the second one begins, if and only if this is true of what sequences with options have
entered inside the first one. -/
theorem overlap_iff (hvalid : tree.validate = .ok ())
    (hclean : (compile host root tree setup delegated).diagnostics = [])
    (hoptions : ∀ o ∈ tree.childOptions, 0 ≤ Walk.delayOf (some o))
    (hdelegated : ∀ e, ∀ i ∈ delegated.instructions e, 0 ≤ i.delay)
    {pre post : List (Animation ℚ)} {a b : Animation ℚ} {options : Option (Options ℚ)} {w : Walk ℚ}
    (h : Visit (setup.setting host delegated) tree (.start root setup [])
      (.sequence (pre ++ a :: b :: post) options) w) :
    let setting := setup.setting host delegated
    let before := (w.openSequence options).follow (bodies setting pre)
    let after := a.body setting before
    (∀ e ∈ before.registered after, after.score.ends e ≤ after.currentTime) ↔
      ∀ steps o v, Visit setting a before (.sequence steps o) v → (Walk.scoping o).isSome →
        ∀ e ∈ v.registered ((Animation.sequence steps o).body setting v),
          after.score.ends e ≤ after.currentTime := by
  intro setting before after
  have htame : tree.Tame setting fun _ => True :=
    ⟨hvalid, hoptions, hdelegated, fun _ _ _ _ _ _ _ => trivial⟩
  have hvisit : Visit setting tree (.start root setup []) a before :=
    h.trans (.step (.here a _))
  obtain ⟨ha, hv, hc, hafter⟩ := hvisit.clocked htame hclean
  constructor
  · -- what such a sequence has entered, the first step has entered
    intro hall steps o v hinner _ e he
    have hnode := ((Animation.sequence steps o).effect setting v).precedes
    refine hall e ?_
    rw [Walk.registered_trans hinner.precedes (hnode.trans hinner.follows),
      Walk.registered_trans hnode hinner.follows]
    exact List.mem_append_right _ (List.mem_append_left _ he)
  · -- for everything else the span of the first step settles it
    intro hscoped e he
    have hspan := (a.proceeds (S := fun e => after.score.ends e ≤ after.currentTime) ha
      hscoped).spans hv hc hafter
    exact (hspan.ends e he).elim id id

end Runs

/-- An element waits for an animation that it already has, and then moves on. -/
def waiting : Animation ℚ :=
  .sequence
    [.animateChild (some (Options.none.withDelay (.number 10))),
      .animate (.ofDuration 100) (.style (.ofEntries [("p", .number 1)]))]
    none

/-- The animation that it already has. -/
def fading : InstructionMap ℚ :=
  .ofList [(⟨1⟩, [{ Instruction.empty ⟨1⟩ 20 with duration := 100 }])]

/-- For such a tree the criterion applies. -/
theorem overlap_iff_waiting :
    let setting := (Setup.standard : Setup ℚ).setting (fun _ _ _ => []) fading
    let before := Walk.start ⟨1⟩ .standard []
    let a : Animation ℚ := .animateChild (some (Options.none.withDelay (.number 10)))
    let after := a.body setting before
    waiting.validate = .ok () ∧
      (compile (fun _ _ _ => []) ⟨1⟩ waiting .standard fading).diagnostics = [] ∧
        (∀ o ∈ waiting.childOptions, 0 ≤ Walk.delayOf (some o)) ∧
          (∀ e, ∀ i ∈ fading.instructions e, 0 ≤ i.delay) ∧
            ((∀ e ∈ before.registered after, after.score.ends e ≤ after.currentTime) ↔
              ∀ steps o v, Visit setting a before (.sequence steps o) v →
                (Walk.scoping o).isSome →
                  ∀ e ∈ v.registered ((Animation.sequence steps o).body setting v),
                    after.score.ends e ≤ after.currentTime) := by
  intro setting before a after
  have hvalid : waiting.validate = .ok () := rfl
  have hclean : (compile (fun _ _ _ => []) ⟨1⟩ waiting .standard fading).diagnostics = [] := by
    decide +kernel
  have hoptions : ∀ o ∈ waiting.childOptions, 0 ≤ Walk.delayOf (some o) := by
    decide +kernel
  have hdelegated : ∀ e, ∀ i ∈ fading.instructions e, 0 ≤ i.delay := by
    intro e i hi
    rw [List.mem_singleton.1 (InstructionMap.mem_of_mem_instructions_ofList hi)]
    decide +kernel
  exact ⟨hvalid, hclean, hoptions, hdelegated,
    @overlap_iff _ _ _ _ _ hvalid hclean hoptions hdelegated [] [] _ _ none before (.here _ _)⟩

/-- A delayed sequence, followed by another step. -/
def overlapping : Animation ℚ :=
  .sequence
    [.sequence [.animate (.ofDuration 100) (.style (.ofEntries [("a", .number 1)]))]
        (some (Options.none.withDelay (.number 50))),
      .animate (.ofDuration 100) (.style (.ofEntries [("b", .number 1)]))]
    none

/-- The second step of `overlapping` begins while the first one goes on. -/
theorem overlapping_overlaps :
    let setting := (Setup.standard : Setup ℚ).setting (fun _ _ _ => []) ∅
    let before := Walk.start ⟨1⟩ .standard []
    overlapping.validate = .ok () ∧
      (compile (fun _ _ _ => []) ⟨1⟩ overlapping .standard ∅).diagnostics = [] ∧
        ∃ a b, Visit setting overlapping before (.sequence [a, b] none) before ∧
          ∃ e ∈ before.registered (a.body setting before),
            (a.body setting before).currentTime < (a.body setting before).score.ends e := by
  intro setting before
  refine ⟨rfl, by decide +kernel, _, _, .here _ _, ?_⟩
  decide +kernel

end Choreography
