/-
Choreography/Proofs/FinalStyles.lean

What final styles change.

They are written on one timeline, which is listed and therefore shown once
(`Score.Filed`).  But writing them changes what is known of the root, and a timeline without
a memory of its own would still put that into its keyframes if anything waited there.  All
timelines of a run are of one lineage (`Walk.kin_run`), so the only timeline of the root without
a memory is the one on which the run has started, and if there are others nothing waits on it
(`Animation.clears`).

Main result: `confined_finalStyles`.
-/
import Choreography.Proofs.Correspondence.Run
import Choreography.Proofs.Integrity
import Choreography.Proofs.Registry
import Choreography.Proofs.Waiting

namespace Choreography

variable {τ : Type} [Quantity τ]

namespace Score

variable {s : Score τ}

/-! ### One lineage -/

/-- All timelines are of one lineage. -/
def Kin (lineage : Nat) (s : Score τ) : Prop :=
  ∀ id < s.timelines.length, (s.timeline id).lineage = lineage

theorem Kin.of_owner {lineage : Nat} (h : s.Kin lineage) {s' : Score τ}
    (hlength : s'.timelines.length = s.timelines.length)
    (howner : ∀ id < s.timelines.length, (s'.timeline id).owner = (s.timeline id).owner) :
    s'.Kin lineage := by
  intro id hid
  rw [hlength] at hid
  exact (congrArg (fun o => o.1) (howner id hid)).trans (h id hid)

theorem Kin.fork {lineage : Nat} (h : s.Kin lineage) {id : TimelineId}
    (hid : id < s.timelines.length) (element : ElementId) (at? : Option τ) :
    (s.fork id element at?).2.Kin lineage := by
  have hflush : (s.edit id Scene.flush).Kin lineage :=
    h.of_owner (length_timelines_edit s id _) fun id' hid' =>
      owner_perform (.change id .flush) hid'
  rw [fork_eq]
  intro id' hid'
  rw [length_timelines_enter] at hid'
  -- a timeline from before, or the new one, which has the lineage of the one it comes from
  rcases Nat.lt_succ_iff_lt_or_eq.1 hid' with hlt | rfl
  · rw [timeline_enter_of_lt _ _ _ hlt]
    exact hflush id' hlt
  · rw [timeline_enter_self]
    exact hflush id (by rwa [length_timelines_edit])

end Score

namespace Walk

/-- The scope stands on a timeline that is there, and all timelines are of one lineage. -/
structure OfLineage (lineage : Nat) (w : Walk τ) : Prop where
  line : w.scope.timeline < w.score.timelines.length
  kin : w.score.Kin lineage

/-- What begins no other lineage. -/
structure Breeds (w w' : Walk τ) : Prop where
  effect : Effect w w'
  kin : ∀ lineage, w.OfLineage lineage → w'.OfLineage lineage

/-- An operation that enters no timeline keeps the lineage. -/
theorem OfLineage.perform {lineage : Nat} {w : Walk τ} (h : w.OfLineage lineage)
    (op : Operation τ)
    (hlength : (w.score.perform op).timelines.length = w.score.timelines.length) :
    ({ w with score := w.score.perform op } : Walk τ).OfLineage lineage :=
  ⟨hlength ▸ h.line, h.kin.of_owner hlength fun _ hid => Score.owner_perform op hid⟩

/-- A scope is entered in the lineage of the one around. -/
theorem OfLineage.enter {lineage : Nat} {w : Walk τ} (h : w.OfLineage lineage)
    (options : Option (Options τ)) (element : ElementId) :
    (w.enter options element).OfLineage lineage where
  line := by
    rw [enter_timeline, enter_length]
    exact Nat.lt_succ_self _
  kin := by
    rw [enter_score]
    exact h.kin.fork h.line element none

/-- What stays in a lineage is put together like what has an effect. -/
theorem Breeds.compositional : Compositional (Breeds : Walk τ → Walk τ → Prop) where
  refl w := ⟨.refl w, fun _ h => h⟩
  trans h h' := ⟨h.effect.trans h'.effect, fun lineage hl => h'.kin lineage (h.kin lineage hl)⟩
  change w c := ⟨.change w c, fun _ h =>
    h.perform (.change w.scope.timeline c) (Score.length_timelines_edit _ _ _)⟩
  merge source w := by
    refine ⟨effect_merge source w, fun _ h => h.perform (.merge w.scope.timeline source) ?_⟩
    show (w.score.merge w.scope.timeline source).timelines.length = _
    unfold Score.merge
    split
    · rfl
    · exact Score.length_timelines_edit _ _ _
  place p w := ⟨Effect.compositional.place p w, fun _ h => ⟨h.line, h.kin⟩⟩
  rescope w scope he ht := ⟨.rescope w scope he ht, fun _ h => ⟨ht ▸ h.line, h.kin⟩⟩
  report w reports := ⟨.report w reports, fun _ h => ⟨h.line, h.kin⟩⟩
  renew at? w := by
    refine ⟨effect_renew at? w, fun _ h => ⟨?_, h.kin.fork h.line _ at?⟩⟩
    rw [renew_timeline]
    show _ < (w.score.fork _ _ _).2.timelines.length
    rw [Score.length_timelines_fork]
    exact Nat.lt_succ_self _
  leave := by
    intro w u inner options element hs hd ht h
    have hleave : Effect w (leave w.scope inner) := .leave hs hd ht h.effect
    refine ⟨hleave, fun lineage hw => ⟨Nat.lt_of_lt_of_le hw.line hleave.length_le, ?_⟩⟩
    -- the scope was entered from a walk that differs in its scope only
    have hu : u.OfLineage lineage := ⟨hs ▸ ht ▸ hw.line, hs ▸ hw.kin⟩
    exact (h.kin lineage (hu.enter options element)).kin

end Walk

/-! ### The last instruction for the root -/

namespace Score

/-- An entry whose timeline does not build on what is known of the written element has the same
instruction as before. -/
theorem instruction_put_of_ne {s : Score τ} {id id' : TimelineId} (scene : Scene τ)
    (hne : id ≠ id') (hsettled : s.cell id' = s.cell id → (s.timeline id').Settled) :
    (s.put id scene).instruction (.timeline id') = s.instruction (.timeline id') := by
  have htimeline : (s.put id scene).timeline id' = s.timeline id' := by
    rw [timeline_put, if_neg fun h => hne h.1]
  by_cases hcell : s.cell id' = s.cell id
  · exact Scene.toInstruction_congr htimeline (hsettled hcell)
  · have hknown : (s.put id scene).scene id' = s.scene id' := by
      unfold Score.scene Score.known
      rw [htimeline]
      show Scene.mk _ (((s.shared.insert (s.cell id) scene.shared).get? (s.cell id')).getD ∅) = _
      rw [OrderedMap.get?_insert, if_neg hcell]
      rfl
    exact congrArg Scene.toInstruction hknown

/-- An instruction is for the element of its entry. -/
theorem element_instruction (s : Score τ) (e : Entry τ) :
    (s.instruction e).element = s.element e := by
  cases e with
  | timeline id => exact congrArg (fun o => o.2.1) (Scene.owner_change (s.scene id) .flush)
  | placed p =>
    show p.toInstruction.element = p.element
    unfold Placement.toInstruction
    split <;> rfl

/-- The timeline that takes final styles is the last of the root, and an empty step has left
its current keyframe. -/
theorem animated_of_finalTimeline? {s : Score τ} {root : ElementId} {id : TimelineId}
    (h : s.finalTimeline? root = some id) :
    (∃ pre post, s.animated = pre ++ .timeline id :: post ∧ ∀ e ∈ post, s.element e ≠ root) ∧
      (s.timeline id).element = root ∧
        (s.timeline id).emptyStep = some (s.timeline id).current := by
  unfold finalTimeline? at h
  split at h
  · rename_i id' hfind
    split at h
    · cases h
    · rename_i hempty
      obtain rfl := Option.some.inj h
      -- the list is searched from its end, so what was passed over stands behind the entry
      obtain ⟨hroot, after, before, hsplit, hafter⟩ := List.find?_eq_some_iff_append.1 hfind
      refine ⟨⟨before.reverse, after.reverse, ?_, ?_⟩, of_decide_eq_true hroot, ?_⟩
      · rw [← List.reverse_reverse s.animated, hsplit]
        simp
      · intro e he
        simpa using hafter e (List.mem_reverse.1 he)
      · simpa [Timeline.allowsOnlyTimelineStyles] using hempty
  · cases h

end Score

/-- The instruction at a position is the last one for an element. -/
def LastFor (element : ElementId) (is : List (Instruction τ)) (i : Nat) : Prop :=
  is[i]?.map Instruction.element = some element ∧
    ∀ j > i, is[j]?.map Instruction.element ≠ some element

omit [Quantity τ] in
/-- An instruction is the last one for its element if no other follows. -/
theorem lastFor_append {element : ElementId} {pre post : List (Instruction τ)}
    {i : Instruction τ} (hi : i.element = element) (hpost : ∀ j ∈ post, j.element ≠ element) :
    LastFor element (pre ++ i :: post) pre.length := by
  constructor
  · simp [hi]
  · intro j hj
    -- a later position is one in the rest
    obtain ⟨k, rfl⟩ := Nat.exists_eq_add_of_lt hj
    have hk : (pre ++ i :: post)[pre.length + k + 1]? = post[k]? := by
      simp [List.getElem?_append_right, Nat.add_assoc]
    rw [hk]
    intro hmap
    obtain ⟨j, hj, rfl⟩ := Option.map_eq_some_iff.1 hmap
    exact hpost j (List.mem_of_getElem? hj) rfl

namespace Walk

section Run

variable (setting : Setting τ) (root : ElementId) (tree : Animation τ) (setup : Setup τ)

/-- There is one timeline to begin with, and it is of the first lineage. -/
theorem kin_blank (sink : List Diagnostic) : (blank root setup sink).OfLineage 0 where
  line := (valid_blank root setup sink).timeline
  kin := by
    intro id hid
    have hzero : id = 0 := by
      change id < (Score.enter _ _ _ _).2.timelines.length at hid
      rw [Score.length_timelines_enter] at hid
      exact Nat.lt_one_iff.1 hid
    subst hzero
    exact congrArg Timeline.lineage
      (Score.timeline_enter_self { Score.empty with lineages := 1 } _ _ _)

/-- All timelines of a run are of one lineage. -/
theorem kin_run (sink : List Diagnostic) : (run setting root tree setup sink).score.Kin 0 := by
  have hb : Compositional (Breeds : Walk τ → Walk τ → Prop) := Breeds.compositional
  have hstart : (start root setup sink).OfLineage 0 := by
    rw [start_eq]
    exact (hb.writeAt _ _ _).kin 0 ((hb.delay _ _).kin 0 (kin_blank root setup sink))
  exact ((hb.body setting tree _).kin 0 hstart).kin

theorem scope_start (sink : List Diagnostic) :
    (start root setup sink).scope = (blank root setup sink).scope := by
  rw [start_eq]
  exact scope_delay _ _

theorem length_start (sink : List Diagnostic) :
    (start root setup sink).score.timelines.length = 1 := by
  rw [start_eq]
  refine (Score.length_timelines_edit _ _ fun s => (s.setStyles _ none _).1).trans ?_
  rw [length_delay]
  exact Score.length_timelines_enter _ _ _ _

/-- Two timelines of the root do not both build on what is known in the end. -/
theorem settled_run (sink : List Diagnostic) {id id' : TimelineId}
    (hid : id < (run setting root tree setup sink).score.timelines.length)
    (hid' : id' < (run setting root tree setup sink).score.timelines.length) (hne : id ≠ id')
    (hroot : ((run setting root tree setup sink).score.timeline id).element = root)
    (hcell : (run setting root tree setup sink).score.cell id' =
      (run setting root tree setup sink).score.cell id) :
    ((run setting root tree setup sink).score.timeline id').Settled := by
  generalize hw : run setting root tree setup sink = w at hid hid' hroot hcell ⊢
  have hstart := valid_start root setup sink
  have heffect : Effect (start root setup sink) w := hw ▸ tree.effect setting _
  have hscore : w.score.Consistent :=
    hw ▸ ((tree.sustains setting _).consistent (consistent_start root setup sink)).score
  have hkin : w.score.Kin 0 := hw ▸ kin_run setting root tree setup sink
  -- with a memory of its own, a timeline does not look at what is shared
  cases hown : (w.score.timeline id').own with
  | some own => exact .inr (by rw [hown]; rfl)
  | none =>
    -- it is the first timeline of the root, which is the one that the run starts on
    have hfirst := (hscore.first id' hid').1 hown
    have hline : (start root setup sink).scope.timeline = 0 :=
      congrArg Scope.timeline (scope_start root setup sink)
    -- the timelines are for the root and of one lineage, so they share one cell
    have hzero : w.score.cell 0 = w.score.cell id := by
      have howner := heffect.owner_eq hstart.timeline
      have helement := (congrArg (fun o => o.2.1) howner).trans hstart.element
      rw [hline, scope_start] at helement
      refine Prod.ext ?_ (Eq.trans helement hroot.symm)
      exact (hkin 0 (Nat.zero_lt_of_lt hid)).trans (hkin id hid).symm
    have hid'zero : id' = 0 := by
      by_contra hpos
      exact hfirst 0 (Nat.pos_of_ne_zero hpos) (hzero.trans hcell.symm)
    subst hid'zero
    -- if there is a second timeline, nothing waits on the first one any more
    have hclears : Clears (start root setup sink) w := hw ▸ tree.clears setting hstart
    unfold Clears at hclears
    rw [hline, length_start] at hclears
    refine .inl (hclears.resolve_left fun hone => ?_)
    -- a single timeline is not two
    rw [hone] at hid
    exact hne (Nat.lt_one_iff.1 hid)

theorem filed_run (sink : List Diagnostic) : (run setting root tree setup sink).score.Filed := by
  obtain ⟨ops, hops⟩ :=
    ((effect_start root setup sink).trans (tree.effect setting _)).precedes.operations
  show (tree.body setting (start root setup sink)).score.Filed
  rw [hops]
  exact (Score.filed_empty.perform (.begin root 0)).performAll ops

/-- Whatever else is shown is shown as without final styles. -/
theorem instruction_finish (sink : List Diagnostic) {id : TimelineId}
    (hfinal : (run setting root tree setup sink).score.finalTimeline? root = some id)
    {e : Entry τ} (he : e ∈ (run setting root tree setup sink).score.order)
    (hne : e ≠ .timeline id) :
    ((run setting root tree setup sink).finish root setup).score.instruction e =
      (run setting root tree setup sink).score.instruction e := by
  have hlisted : (run setting root tree setup sink).score.Listed :=
    ((tree.effect setting _).valid (valid_start root setup sink)).listed
  obtain ⟨-, hroot, -⟩ := Score.animated_of_finalTimeline? hfinal
  have hid := hlisted id (Score.lt_of_finalTimeline? hfinal)
  simp only [finish, hfinal]
  split
  · rfl
  · cases e with
    | placed p => rfl
    | timeline id' =>
      have hne' : id ≠ id' := fun h => hne (congrArg Entry.timeline h.symm)
      -- only a timeline that builds on the same cell could see the new styles
      exact Score.instruction_put_of_ne _ hne' fun hcell =>
        settled_run setting root tree setup sink hid (hlisted id' he) hne' hroot hcell

/-- And the timeline that takes them gets them written. -/
theorem scene_finish (sink : List Diagnostic) {id : TimelineId}
    (hfinal : (run setting root tree setup sink).score.finalTimeline? root = some id)
    (hstyles : setup.finalStyles.isEmpty = false) :
    ((run setting root tree setup sink).finish root setup).score.scene id =
      (((run setting root tree setup sink).score.scene id).setStyles
        [.values setup.finalStyles] none
        (run setting root tree setup sink).scope.options.params).1 := by
  have hid : id < (run setting root tree setup sink).score.timelines.length :=
    ((tree.effect setting _).valid (valid_start root setup sink)).listed id
      (Score.lt_of_finalTimeline? hfinal)
  let run := run setting root tree setup sink
  simp only [finish, hfinal, hstyles, Bool.false_eq_true, if_false]
  exact Score.scene_edit_self (f := (·.change (.write [.values setup.finalStyles] none
    run.scope.options.params))) (Scene.owner_change _ _) hid

/-- Final styles split what is shown into the instruction that they change and the others. -/
theorem exists_split_finish (sink : List Diagnostic) {id : TimelineId}
    (hfinal : (run setting root tree setup sink).score.finalTimeline? root = some id) :
    let w := run setting root tree setup sink
    ∃ pre post : List (Instruction τ), w.score.animated[pre.length]? = some (.timeline id) ∧
      w.score.animated.map w.score.instruction =
        pre ++ w.score.instruction (.timeline id) :: post ∧
      w.score.animated.map (w.finish root setup).score.instruction =
        pre ++ (w.finish root setup).score.instruction (.timeline id) :: post ∧
      ∀ i ∈ post, i.element ≠ root := by
  intro w
  obtain ⟨⟨pre, post, hsplit, hpost⟩, -⟩ := Score.animated_of_finalTimeline? hfinal
  obtain ⟨hnotpre, hnotpost⟩ :=
    (filed_run setting root tree setup sink).not_mem_of_animated_eq hsplit
  change w.score.animated = _ at hsplit
  -- the timeline is shown once, so the other entries are not changed
  have hsame : ∀ entries : List (Entry τ), entries ⊆ w.score.animated →
      Entry.timeline id ∉ entries →
        entries.map (w.finish root setup).score.instruction = entries.map w.score.instruction := by
    intro entries hentries hnot
    refine List.map_congr_left fun e he => ?_
    exact instruction_finish setting root tree setup sink hfinal
      (List.mem_filter.1 (hentries he)).1 fun h => hnot (h ▸ he)
  have hpre := hsame pre (fun e he => hsplit ▸ List.mem_append_left _ he) hnotpre
  have hrest := hsame post
    (fun e he => hsplit ▸ List.mem_append_right _ (List.mem_cons_of_mem _ he)) hnotpost
  refine ⟨pre.map w.score.instruction, post.map w.score.instruction, ?_, ?_, ?_, ?_⟩
  · simp [hsplit]
  · rw [hsplit, List.map_append, List.map_cons]
  · rw [hsplit, List.map_append, List.map_cons, hpre, hrest]
  · intro i hi
    obtain ⟨e, he, rfl⟩ := List.mem_map.1 hi
    rw [Score.element_instruction]
    exact hpost e he

end Run

end Walk

/-- Lists that differ in one entry differ at its position. -/
theorem eq_length_of_getElem?_ne {α : Type} {pre post : List α} {a b : α} {i : Nat}
    (h : (pre ++ a :: post)[i]? ≠ (pre ++ b :: post)[i]?) : i = pre.length := by
  by_contra hne
  apply h
  -- before and after that position both lists are the same
  rcases Nat.lt_or_gt_of_ne hne with hlt | hgt
  · rw [List.getElem?_append_left hlt, List.getElem?_append_left hlt]
  · obtain ⟨k, rfl⟩ := Nat.exists_eq_add_of_lt hgt
    simp [List.getElem?_append_right, Nat.add_assoc]

/-- **Final styles are confined to one instruction.** -/
theorem confined_finalStyles (host : Host) (root : ElementId) (tree : Animation τ)
    (setup : Setup τ) (delegated : InstructionMap τ) :
    let plain := (compile host root tree { setup with finalStyles := ∅ } delegated).instructions
    let settled := (compile host root tree setup delegated).instructions
    let run := Walk.run (setup.setting host delegated) root tree setup []
    settled.length = plain.length ∧
      ∀ i, settled[i]? ≠ plain[i]? → LastFor root plain i ∧ LastFor root settled i ∧
        ∃ id, run.score.animated[i]? = some (.timeline id) ∧
          plain[i]? = some (run.score.scene id).toInstruction ∧
          settled[i]? = some ((run.score.scene id).setStyles [.values setup.finalStyles] none
            run.scope.options.params).1.toInstruction ∧
          (run.score.scene id).toInstruction.isSubTimeline = false ∧
          (run.score.timeline id).emptyStep = some (run.score.timeline id).current := by
  intro plain settled run
  have hplain : plain = if run.score.animated.isEmpty then [.empty root setup.delay]
      else run.score.animated.map run.score.instruction := rfl
  have hsettled : settled = if run.score.animated.isEmpty then [.empty root setup.delay]
      else run.score.animated.map (run.finish root setup).score.instruction := rfl
  have hlength : settled.length = plain.length := by
    rw [hplain, hsettled]
    split
    · rfl
    · rw [List.length_map, List.length_map]
  refine ⟨hlength, fun i hi => ?_⟩
  cases hfinal : run.score.finalTimeline? root with
  | none =>
    -- nothing takes the final styles
    have hfinish : run.finish root setup = run := by
      unfold Walk.finish
      rw [hfinal]
      split <;> rfl
    exact absurd (by rw [hsettled, hplain, hfinish]) hi
  | some id =>
    obtain ⟨-, hroot, hempty⟩ := Score.animated_of_finalTimeline? hfinal
    obtain ⟨pre, post, hid, hwithout, hwith, hpost⟩ :=
      Walk.exists_split_finish (setup.setting host delegated) root tree setup [] hfinal
    -- there is a timeline to take the styles, so there are instructions
    have hshown : run.score.animated.isEmpty = false := by
      rw [List.isEmpty_eq_false_iff]
      exact List.ne_nil_of_mem (List.mem_of_getElem? hid)
    rw [hshown] at hplain hsettled
    replace hplain := hplain.trans hwithout
    replace hsettled := hsettled.trans hwith
    have hstyles : setup.finalStyles.isEmpty = false := by
      by_contra hnone
      refine hi ?_
      rw [hplain, hsettled]
      unfold Walk.finish
      rw [if_pos (by simpa using hnone)]
    have hscene :=
      Walk.scene_finish (setup.setting host delegated) root tree setup [] hfinal hstyles
    -- to write styles does not make the timeline another element's
    have hroot' : ((run.finish root setup).score.timeline id).element = root := by
      have howner := Scene.owner_change (run.score.scene id)
        (.write [.values setup.finalStyles] none run.scope.options.params)
      exact (congrArg (fun s => s.timeline.element) hscene).trans
        ((congrArg (fun o => o.2.1) howner).trans hroot)
    have hat : ∀ i : Instruction τ, (pre ++ i :: post)[pre.length]? = some i := fun i => by simp
    rw [hplain, hsettled] at hi ⊢
    obtain rfl := eq_length_of_getElem?_ne hi
    refine ⟨lastFor_append ((Score.element_instruction _ _).trans hroot) hpost,
      lastFor_append ((Score.element_instruction _ _).trans hroot') hpost, id, hid, ?_, ?_, rfl,
      hempty⟩
    · exact hat _
    · rw [hat]
      exact congrArg (fun s => some s.toInstruction) hscene

/-- They do change something: here `a` ends on its final value, and not wherever the player
finds it. -/
example :
    let tree : Animation ℚ := .sequence [.style (.ofEntries [("a", .number 0)]),
      .animate (.ofDuration 100) (.style ⟨[], none, none⟩)] none
    let setup : Setup ℚ :=
      { Setup.standard with finalStyles := .ofList [("a", .literal (.number 2))] }
    let shown := fun setup => (compile (fun _ _ _ => []) ⟨0⟩ tree setup ∅).instructions.map fun i =>
      i.keyframes.map fun k => k.styles.get? "a"
    shown setup = [[some (.literal (.number 0)), some (.literal (.number 2))]] ∧
      shown { setup with finalStyles := ∅ } = [[some (.literal (.number 0)), some .auto]] := by
  decide +kernel

end Choreography
