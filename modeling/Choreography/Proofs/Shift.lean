/-
Choreography/Proofs/Shift.lean

A delay of the root shifts everything.

With a delay the root timeline starts later, and all that is compiled after it counts from
there; so a run with a delay and one without are side by side, with all times moved by the
delay (`Translation.shift`).  Only in three places does it show that the times have been
moved.  A delayed query looks whether the clock stands at zero, and a delegated instruction
that is stretched has its delay folded into the keyframes; both are excluded.  And a timeline
that is to start at zero starts where the clock stands, which is the same moment as long as
no clock is turned back; that is where durations must not be negative.

Main result: `compile_withDelay`.
-/
import Choreography.Proofs.Correspondence.Run
import Choreography.Proofs.Overlap
import Choreography.Proofs.Stagger

namespace Choreography

/-! ### Shifted times -/

/-- All times are later by a constant. -/
def Translation.shift (d : ℚ) (hd : 0 ≤ d) : Translation ℚ where
  time x := x + d
  still := False
  ahead x y := x ≤ y
  forth x := 0 ≤ x
  time_of_still h _ := h.elim
  time_add x y := add_right_comm x y d
  add_time x y := add_assoc x y d
  time_sub x y := add_sub_add_right_eq_sub x y d
  time_bne x y := by
    rw [Bool.eq_iff_iff, bne_iff_ne, bne_iff_ne, ne_eq, add_left_inj]
  time_lt x y := add_lt_add_iff_right d
  time_later x y := by
    rw [later_eq_max, later_eq_max, max_add_add_right]
  time_fork := by
    intro x y hx hxy
    by_cases hy : y = 0
    · -- then the clock stands at zero as well
      have hx : x = 0 := le_antisymm (hy ▸ hxy) hx
      subst hx hy
      split <;> simp
    · have hpos : 0 < y := lt_of_le_of_ne (hx.trans hxy) (Ne.symm hy)
      have hmoved : y + d ≠ 0 := (add_pos_of_pos_of_nonneg hpos hd).ne'
      rw [if_pos (bne_iff_ne.2 hmoved), if_pos (bne_iff_ne.2 hy)]
  ahead_refl := le_refl
  ahead_trans := le_trans
  ahead_later := le_later_left
  ahead_add _ _ hy := le_add_of_nonneg_right hy
  ahead_add_add _ _ _ hz := by
    rw [← add_assoc]
    exact le_add_of_nonneg_right hz
  ahead_add_right _ _ _ hz := by
    rw [add_right_comm]
    exact le_add_of_nonneg_right hz
  forth_zero := le_refl 0
  forth_frame := zero_le_one
  forth_of_pos := le_of_lt
  forth_read _ h := (nonneg_of_read (h.resolve_left id)).1

/-- A run without a delay and one with a delay. -/
def Correspondence.shift (d : ℚ) (hd : 0 ≤ d) : Correspondence ℚ where
  translation := .shift d hd
  extent := .all
  base := ⟨.begin default 0, .empty, []⟩
  base' := ⟨.begin default 0, .empty, []⟩

/-- Such runs have everything in common but the time. -/
theorem Correspondence.entire_shift (d : ℚ) (hd : 0 ≤ d) : (shift d hd).Entire := ⟨rfl, rfl, rfl⟩

/-- The nodes of a valid tree do the same with a delay, if its queries have none. -/
theorem Correspondence.allows_shift {d : ℚ} (hd : 0 ≤ d) {node : Animation ℚ}
    (hvalid : node.validate = .ok ())
    (hquery : ∀ q animation options, node = .query q animation options →
      options.bind Options.delay = none) : (shift d hd).Allows node := by
  refine Correspondence.allows_of_applies ?_ (fun step _ => .of_exact (x := .all) trivial step) ?_
    fun _ _ _ => trivial
  · rintro t target rfl
    exact (nonneg_of_validateTimings (validateTimings_of_validateAnimate hvalid)).1
  · -- without a delay a query does not ask where the clock stands
    rintro q animation options rfl
    refine ⟨trivial, .inr ?_⟩
    rw [Walk.delayOf, hquery q animation options rfl]
    rfl

/-! ### The root timeline -/

/-- The choices of a setup, with a delay. -/
def Setup.withDelay (setup : Setup ℚ) (delay : Scalar ℚ) : Setup ℚ :=
  { setup with options := setup.options.withDelay delay }

namespace Walk

/-- The root timeline starts after the delay, and nothing else is different. -/
theorem score_delay_blank (root : ElementId) (setup : Setup ℚ) (sink : List Diagnostic) {d : ℚ}
    (hd : 0 ≤ d) :
    ((blank root setup sink).delay d).score = (Score.empty.begin root (0 + d)).2 := by
  unfold delay
  split
  · -- nothing has happened on the root timeline, so its start is moved
    have hshared : (blank root setup sink).score.known 0 root = ∅ := by
      show ((∅ : OrderedMap _ (StyleMap ℚ)).insert (0, root) ∅ |>.get? (0, root)).getD ∅ = ∅
      rw [OrderedMap.get?_insert, if_pos rfl]
      rfl
    -- without a duration and without anything in wait, it is the start that moves
    have hmoved : ((blank root setup sink).score.scene 0).delayNextStep d =
        ⟨.begin 0 root (0 + d) none, ∅⟩ := by
      have hscene : (blank root setup sink).score.scene 0 = ⟨.begin 0 root 0 none, ∅⟩ :=
        congrArg (Scene.mk (Timeline.begin 0 root 0 none)) hshared
      rw [hscene]
      simp [Scene.delayNextStep, Timeline.begin, OrderedMap.isEmpty, Scene.onTimeline]
    have hmap : ((∅ : OrderedMap _ (StyleMap ℚ)).insert (0, root) ∅).insert (0, root) ∅ =
        (∅ : OrderedMap _ (StyleMap ℚ)).insert (0, root) ∅ := by
      apply OrderedMap.ext
      simp [OrderedMap.insert, insertEntry]
    show (blank root setup sink).score.put 0
      (((blank root setup sink).score.scene 0).delayNextStep d) = _
    rw [hmoved]
    exact congrArg (Score.mk [.begin 0 root (0 + d) none] [.timeline 0] · 1) hmap
  · rename_i hpos
    rw [le_antisymm (not_lt.1 hpos) hd, add_zero]
    rfl

/-- The runs begin with walks that correspond. -/
theorem corresponds_delay_blank (root : ElementId) {setup setup' : Setup ℚ} {d : ℚ} (hd : 0 ≤ d)
    (hdelay : setup.delay = 0) (hdelay' : setup'.delay = d)
    (hoverrides : (blank root setup' []).scope.options.params =
      (blank root setup []).scope.options.params) :
    ((blank root setup []).delay setup.delay).Corresponds (.shift d hd)
      ((blank root setup' []).delay setup'.delay) := by
  have hc := Correspondence.entire_shift d hd
  -- the first run does not wait at all
  have hundelayed : (blank root setup []).delay setup.delay = blank root setup [] := by
    rw [hdelay]
    exact if_neg (lt_irrefl 0)
  have hscope : ((blank root setup' []).delay setup'.delay).scope =
      (blank root setup' []).scope := scope_delay _ _
  have hdiagnostics : ((blank root setup' []).delay setup'.delay).diagnostics = [] := by
    unfold Walk.delay
    split <;> rfl
  rw [hundelayed]
  refine ⟨?_, valid_blank root setup [], Nat.zero_le _, ?_, ?_, ?_, ?_, (fun t ht => by cases ht),
    ?_, ?_, ⟨[], rfl, hdiagnostics⟩, fun _ => ⟨?_, ?_, ?_, ?_⟩⟩
  · rw [hdelay', score_delay_blank root _ [] hd]
    exact hc.corresponds_begin root 0
  all_goals
    rw [hscope]
    first | rfl | exact hoverrides

end Walk

/-! ### Delayed runs -/

section Compile

variable {host : Host} {root : ElementId} {tree : Animation ℚ} {setup : Setup ℚ}
  {delegated : InstructionMap ℚ} {delay : Scalar ℚ}

/-- **A delay of the root is a rigid shift**: the same is reported, and every instruction has
its delay larger by just that much. -/
theorem compile_withDelay (hvalid : tree.validate = .ok ())
    (hclean : (compile host root tree setup delegated).diagnostics = [])
    (hqueries : ∀ q animation options, .query q animation options ∈ tree.nodes →
      options.bind Options.delay = none)
    (hstretch : ∀ e, ∀ i ∈ delegated.instructions e, i.stretchStart = false)
    (hnone : setup.options.delay = none) (hd : 0 ≤ delay.milliseconds) :
    compile host root tree (setup.withDelay delay) delegated =
      ⟨(compile host root tree setup delegated).instructions.map fun i =>
          { i with delay := i.delay + delay.milliseconds },
        (compile host root tree setup delegated).diagnostics⟩ := by
  have hzero : setup.delay = 0 := by
    rw [Setup.delay, Walk.delayOf, Option.bind_some, hnone]
  -- the nodes of a valid tree are valid, and its queries have no delays
  have hallows : ∀ node ∈ tree.nodes, (Correspondence.shift delay.milliseconds hd).Allows node := by
    intro node hnode
    refine Correspondence.allows_shift hd (Animation.validate_of_mem_nodes hvalid node hnode) ?_
    rintro q animation options rfl
    exact hqueries q animation options hnode
  have hdelay : (setup.withDelay delay).delay = setup.delay + delay.milliseconds := by
    rw [hzero, zero_add]
    rfl
  have hundelayed : (Walk.blank root setup []).delay setup.delay = Walk.blank root setup [] := by
    rw [hzero]
    exact if_neg (lt_irrefl 0)
  -- the clock is not before zero, so no fork takes its time for none
  have hnow : (0 : ℚ) ≤ ((Walk.blank root setup []).delay setup.delay).currentTime := by
    rw [hundelayed]
    exact (add_zero (0 : ℚ)).ge
  have hsetting : (setup.withDelay delay).setting host delegated = setup.setting host delegated :=
    rfl
  have hroot := Walk.corresponds_delay_blank root hd hzero
    (show (setup.withDelay delay).delay = delay.milliseconds from rfl) rfl
  obtain ⟨hinstructions, reports, hreports, hreports'⟩ :=
    compileInto_eq (Correspondence.entire_shift delay.milliseconds hd) host root delegated
      hsetting rfl rfl hdelay hroot hnow (fun e i hi => .inr (hstretch e i hi)) hallows (.inr hclean)
  show Compiled.mk (compileInto host root tree (setup.withDelay delay) delegated []).1
    (compileInto host root tree (setup.withDelay delay) delegated []).2 = _
  rw [hinstructions, hreports']
  exact congrArg (Compiled.mk _) hreports.symm

end Compile

/-- An element fades in, and again together with two others when the animations that they
already have are over. -/
def fadingTogether : Animation ℚ :=
  .group [fadeIn,
      .query (.ofWritten ":self, .item") (.sequence [.animateChild none, fadeIn] none) none]
    (some (Options.none.withDelay (.number 10)))

/-- With a delay of 50 they all do so 50 later. -/
theorem compile_withDelay_together :
    fadingTogether.validate = .ok () ∧
      (compile pairHost ⟨1⟩ fadingTogether .standard fading).diagnostics = [] ∧
        (∀ q animation options, .query q animation options ∈ fadingTogether.nodes →
          options.bind Options.delay = none) ∧
          (∀ e, ∀ i ∈ fading.instructions e, i.stretchStart = false) ∧
            compile pairHost ⟨1⟩ fadingTogether (Setup.standard.withDelay (.number 50)) fading =
              ⟨(compile pairHost ⟨1⟩ fadingTogether .standard fading).instructions.map fun i =>
                  { i with delay := i.delay + 50 },
                (compile pairHost ⟨1⟩ fadingTogether .standard fading).diagnostics⟩ := by
  have hvalid : fadingTogether.validate = .ok () := by decide +kernel
  have hclean : (compile pairHost ⟨1⟩ fadingTogether .standard fading).diagnostics = [] := by
    decide +kernel
  have hqueries : ∀ q animation options, .query q animation options ∈ fadingTogether.nodes →
      options.bind Options.delay = none := by
    intro q animation options hmem
    have hnone : options = none := by
      simp [fadingTogether, fadeIn, Animation.nodes, nodesOf] at hmem
      exact hmem.2.2
    rw [hnone]
    rfl
  have hstretch : ∀ e, ∀ i ∈ fading.instructions e, i.stretchStart = false := by
    intro e i hi
    rw [List.mem_singleton.1 (InstructionMap.mem_of_mem_instructions_ofList hi)]
    rfl
  have hdelay : (0 : ℚ) ≤ (Scalar.number (50 : ℚ)).milliseconds := by decide +kernel
  exact ⟨hvalid, hclean, hqueries, hstretch,
    compile_withDelay hvalid hclean hqueries hstretch rfl hdelay⟩

end Choreography
