/-
Choreography/Proofs/Normalized.lean

Offsets from 0 to 1.

The times of a clocked timeline go from zero to its duration and are all different, so as
fractions of the duration they ascend strictly from 0 to 1 (`Scene.normalized_toInstruction`).
A timeline that takes no time has a single keyframe, which is shown at both ends.  Folding a
delay into the keyframes of a placement scales and rounds their offsets, and neither changes
their order (`Placement.normalized_toInstruction`).  A tame tree that compiles without a
report leaves nothing but such timelines and placements.
-/
import Choreography.Proofs.Finish
import Choreography.Proofs.Overlap

namespace Choreography

namespace Instruction

/-- The offsets of the keyframes. -/
def offsets (i : Instruction ℚ) : List ℚ := i.keyframes.map Keyframe.offset

/-- At least two keyframes, whose offsets ascend from 0 to 1. -/
structure Normalized (i : Instruction ℚ) : Prop where
  two_le : 2 ≤ i.keyframes.length
  ascending : i.offsets.Pairwise (· ≤ ·)
  first : i.offsets.head? = some 0
  last : i.offsets.getLast? = some 1

theorem Normalized.nonneg {i : Instruction ℚ} (h : i.Normalized) : ∀ x ∈ i.offsets, 0 ≤ x := by
  obtain ⟨rest, hrest⟩ := List.head?_eq_some_iff.1 h.first
  have hascending := h.ascending
  rw [hrest] at hascending ⊢
  intro x hx
  rcases List.mem_cons.1 hx with rfl | hx
  · exact le_rfl
  · exact List.rel_of_pairwise_cons hascending hx

theorem normalized_iff (i : Instruction ℚ) :
    i.Normalized ↔ 2 ≤ i.keyframes.length ∧ i.offsets.Pairwise (· ≤ ·) ∧
      i.offsets.head? = some 0 ∧ i.offsets.getLast? = some 1 := by
  constructor
  · intro h
    exact ⟨h.two_le, h.ascending, h.first, h.last⟩
  · rintro ⟨htwo, hascending, hfirst, hlast⟩
    exact ⟨htwo, hascending, hfirst, hlast⟩

instance (i : Instruction ℚ) : Decidable i.Normalized :=
  decidable_of_iff _ i.normalized_iff.symm

end Instruction

/-! ### Ascending lists -/

/-- An ascending list begins with its least member. -/
theorem head?_eq_of_pairwise {xs : List ℚ} {a : ℚ} (h : xs.Pairwise (· ≤ ·)) (ha : a ∈ xs)
    (hle : ∀ x ∈ xs, a ≤ x) : xs.head? = some a := by
  cases xs with
  | nil => cases ha
  | cons x rest =>
    have hx : x ≤ a := by
      rcases List.mem_cons.1 ha with rfl | ha
      · exact le_rfl
      · exact List.rel_of_pairwise_cons h ha
    rw [List.head?_cons, le_antisymm hx (hle x List.mem_cons_self)]

/-- And it ends with its greatest one. -/
theorem getLast?_eq_of_pairwise {xs : List ℚ} {a : ℚ} (h : xs.Pairwise (· ≤ ·)) (ha : a ∈ xs)
    (hle : ∀ x ∈ xs, x ≤ a) : xs.getLast? = some a := by
  rcases List.eq_nil_or_concat xs with rfl | ⟨rest, x, rfl⟩
  · cases ha
  · rw [List.concat_eq_append] at *
    have hx : a ≤ x := by
      rcases List.mem_append.1 ha with ha | ha
      · exact (List.pairwise_append.1 h).2.2 a ha x (List.mem_singleton_self x)
      · exact (List.mem_singleton.1 ha).le
    have hmem : x ∈ rest ++ [x] := List.mem_append_right _ (List.mem_singleton_self x)
    rw [List.getLast?_append, List.getLast?_singleton, Option.some_or,
      le_antisymm (hle x hmem) hx]

/-! ### Timelines -/

/-- If no time has passed then there is only one keyframe. -/
theorem Timeline.Clocked.times_eq_of_duration_eq_zero {t : Timeline ℚ} (h : t.Clocked)
    (hd : t.duration = 0) : t.times = [0] := by
  have hzero : ∀ x ∈ t.times, x = 0 := by
    intro x hx
    obtain ⟨hlo, hhi⟩ := h.bounds x hx
    exact le_antisymm (hhi.trans hd.le) hlo
  have heq : t.times = List.replicate t.times.length 0 := List.eq_replicate_iff.2 ⟨rfl, hzero⟩
  have hone : t.times.length = 1 := by
    have hnodup := h.nodup
    rw [heq, List.nodup_replicate] at hnodup
    have hpos := List.length_pos_of_mem h.zero
    omega
  rw [heq, hone]
  rfl

namespace Scene

/-- Sorted keyframes have ascending offsets. -/
theorem pairwise_sortByOffset (ks : List (Keyframe ℚ)) :
    ((sortByOffset ks).map Keyframe.offset).Pairwise (· ≤ ·) := by
  rw [List.pairwise_map, sortByOffset_eq]
  -- rational offsets can be compared, so the sort is by a total order
  have hsorts : ∀ a b : Keyframe ℚ,
      Quantity.sortsBefore a.offset b.offset = true ↔ a.offset ≤ b.offset :=
    fun a b => decide_eq_true_iff
  have htotal : Std.Total fun a b : Keyframe ℚ => Quantity.sortsBefore a.offset b.offset = true :=
    ⟨fun a b => by simpa only [hsorts] using le_total a.offset b.offset⟩
  have htrans : IsTrans (Keyframe ℚ) fun a b => Quantity.sortsBefore a.offset b.offset = true :=
    ⟨fun a b c => by simpa only [hsorts] using le_trans⟩
  exact (List.pairwise_insertionSort _ ks).imp fun h => (hsorts _ _).1 h

theorem isInstant_iff {s : Scene ℚ} (h : s.flush.timeline.Clocked) :
    s.isInstant = true ↔ s.flush.timeline.duration = 0 := by
  rw [isInstant, Bool.and_eq_true, beq_iff_eq, decide_eq_true_eq]
  refine ⟨And.right, fun hd => ⟨?_, hd⟩⟩
  have hlength := congrArg List.length (h.times_eq_of_duration_eq_zero hd)
  rwa [Timeline.times, List.length_map] at hlength

/-- An instant has two keyframes. -/
theorem offsets_toInstruction_of_instant {s : Scene ℚ} (h : s.flush.timeline.Clocked)
    (hd : s.flush.timeline.duration = 0) : s.toInstruction.offsets = [0, 1] := by
  have hlength := congrArg List.length (h.times_eq_of_duration_eq_zero hd)
  rw [Timeline.times, List.length_map] at hlength
  obtain ⟨k, hk⟩ := List.length_eq_one_iff.1 hlength
  rw [Instruction.offsets, keyframes_toInstruction, if_pos ((isInstant_iff h).2 hd)]
  simp [fractions, hk, hd, sortByOffset, insertByOffset]

/-- Otherwise the offsets are the times as fractions of the duration, in their order. -/
theorem offsets_toInstruction_of_lasting {s : Scene ℚ} (h : s.flush.timeline.Clocked)
    (hd : s.flush.timeline.duration ≠ 0) :
    s.toInstruction.offsets.Pairwise (· ≤ ·) ∧
      s.toInstruction.offsets.Perm
        (s.flush.timeline.times.map (· / s.flush.timeline.duration)) := by
  have hoffsets : s.toInstruction.offsets = (sortByOffset s.fractions).map Keyframe.offset := by
    rw [Instruction.offsets, keyframes_toInstruction, if_neg (mt (isInstant_iff h).1 hd)]
  rw [hoffsets]
  refine ⟨pairwise_sortByOffset _, ((perm_sortByOffset s.fractions).map _).trans (.of_eq ?_)⟩
  simp [fractions, Timeline.times, hd]

/-- The instruction of a clocked timeline is normalized, and no two of its keyframes are at
the same offset. -/
theorem normalized_toInstruction {s : Scene ℚ} (hs : s.timeline.Clocked) :
    s.toInstruction.Normalized ∧ s.toInstruction.offsets.Pairwise (· < ·) := by
  have h : s.flush.timeline.Clocked := hs.of_skeleton_eq s.skeleton_flush
  rcases h.duration_nonneg.eq_or_lt with hd | hpos
  · -- a timeline that takes no time shows its keyframe at both ends
    have hoffsets := offsets_toInstruction_of_instant h hd.symm
    rw [Instruction.normalized_iff, ← List.length_map Keyframe.offset, ← Instruction.offsets,
      hoffsets]
    decide
  · obtain ⟨hsorted, hperm⟩ := offsets_toInstruction_of_lasting h hpos.ne'
    have hstrict : s.toInstruction.offsets.Pairwise (· < ·) := by
      -- different times are different fractions
      have hnodup : s.toInstruction.offsets.Nodup :=
        hperm.nodup_iff.2 (h.nodup.map fun _ _ => (div_left_inj' hpos.ne').1)
      exact (hsorted.and hnodup).imp fun hab => lt_of_le_of_ne hab.1 hab.2
    have hmem : ∀ x, x ∈ s.toInstruction.offsets ↔
        ∃ time ∈ s.flush.timeline.times, time / s.flush.timeline.duration = x := by
      intro x
      rw [hperm.mem_iff, List.mem_map]
    have hbounds : ∀ x ∈ s.toInstruction.offsets, 0 ≤ x ∧ x ≤ 1 := by
      intro x hx
      obtain ⟨time, htime, rfl⟩ := (hmem x).1 hx
      obtain ⟨hlo, hhi⟩ := h.bounds time htime
      exact ⟨div_nonneg hlo hpos.le, (div_le_one hpos).2 hhi⟩
    -- the first keyframe is at zero, and there is one where the clock stands
    have hzero : (0 : ℚ) ∈ s.toInstruction.offsets := (hmem 0).2 ⟨0, h.zero, zero_div _⟩
    have hone : (1 : ℚ) ∈ s.toInstruction.offsets := (hmem 1).2 ⟨_, h.now, div_self hpos.ne'⟩
    have htwo : 2 ≤ s.toInstruction.offsets.length := by
      have hsubset : [(0 : ℚ), 1] ⊆ s.toInstruction.offsets := by
        simp [hzero, hone]
      exact ((by decide : [(0 : ℚ), 1].Nodup).subperm hsubset).length_le
    rw [Instruction.offsets, List.length_map] at htwo
    exact ⟨⟨htwo, hsorted, head?_eq_of_pairwise hsorted hzero fun x hx => (hbounds x hx).1,
      getLast?_eq_of_pairwise hsorted hone fun x hx => (hbounds x hx).2⟩, hstrict⟩

end Scene

/-! ### Placements -/

theorem Exact.round_mono {a b : ℚ} (h : a ≤ b) : Exact.round a ≤ Exact.round b := by
  unfold Exact.round
  -- halves are rounded away from zero, so the two signs are rounded differently
  split
  · split
    · have hfloor : ⌊-b + 1 / 2⌋ ≤ ⌊-a + 1 / 2⌋ := Int.floor_mono (by linarith)
      exact neg_le_neg (Int.cast_le.2 hfloor)
    · have hleft : 0 ≤ ⌊-a + 1 / 2⌋ := Int.floor_nonneg.2 (by linarith)
      have hright : 0 ≤ ⌊b + 1 / 2⌋ := Int.floor_nonneg.2 (by linarith)
      exact (neg_nonpos.2 (Int.cast_nonneg hleft)).trans (Int.cast_nonneg hright)
  · rw [if_neg (by linarith)]
    exact Int.cast_le.2 (Int.floor_mono (by linarith))

/-- Rounding keeps the order of offsets, and leaves both ends where they are. -/
theorem toThousandths_mono {a b : ℚ} (h : a ≤ b) :
    Quantity.toThousandths a ≤ Quantity.toThousandths b := by
  have hscaled : a * ((1000 : ℕ) : ℚ) ≤ b * ((1000 : ℕ) : ℚ) :=
    mul_le_mul_of_nonneg_right h (Nat.cast_nonneg _)
  exact div_le_div_of_nonneg_right (Exact.round_mono hscaled) (Nat.cast_nonneg 1000)

/-- The start of an instruction is not moved by rounding. -/
theorem toThousandths_zero : Quantity.toThousandths (0 : ℚ) = 0 := by
  decide +kernel

/-- Nor is the end. -/
theorem toThousandths_one : Quantity.toThousandths (1 : ℚ) = 1 := by
  decide +kernel

namespace Placement

/-- Where an offset goes when the delay is folded into the keyframes. -/
def stretchOffset (p : Placement ℚ) (offset : ℚ) : ℚ :=
  Quantity.toThousandths ((p.delay + offset * p.duration) / (p.duration + p.delay))

theorem stretchOffset_mono {p : Placement ℚ} (hd : 0 ≤ p.duration) (hdelay : 0 < p.delay) {a b : ℚ}
    (h : a ≤ b) : p.stretchOffset a ≤ p.stretchOffset b := by
  -- the time of the keyframe grows with the offset, and the total is the same
  refine toThousandths_mono (div_le_div_of_nonneg_right ?_ (by linarith))
  exact (add_le_add_iff_left _).2 (mul_le_mul_of_nonneg_right h hd)

theorem stretchOffset_nonneg {p : Placement ℚ} (hd : 0 ≤ p.duration) (hdelay : 0 < p.delay)
    {offset : ℚ} (h : 0 ≤ offset) : 0 ≤ p.stretchOffset offset := by
  rw [← toThousandths_zero]
  have hsum : 0 ≤ p.delay + offset * p.duration := by
    have hmul := mul_nonneg h hd
    linarith
  exact toThousandths_mono (div_nonneg hsum (by linarith))

theorem stretchOffset_one {p : Placement ℚ} (hd : 0 ≤ p.duration) (hdelay : 0 < p.delay) :
    p.stretchOffset 1 = 1 := by
  have htotal : p.duration + p.delay ≠ 0 := by linarith
  rw [stretchOffset, one_mul, add_comm p.delay, div_self htotal, toThousandths_one]

/-- A folded delay holds the first keyframe, and moves the offsets. -/
theorem offsets_stretchedKeyframes {p : Placement ℚ} (h : p.source.offsets.head? = some 0) :
    p.stretchedKeyframes.map Keyframe.offset = 0 :: p.source.offsets.map p.stretchOffset := by
  cases hk : p.source.keyframes with
  | nil => simp [Instruction.offsets, hk] at h
  | cons first rest =>
    have hfirst : first.offset = 0 := by
      simpa [Instruction.offsets, hk] using h
    simp [stretchedKeyframes, Instruction.offsets, hk, stretchOffset, hfirst]

/-- Wherever a normalized instruction is placed, it stays normalized. -/
theorem normalized_toInstruction {p : Placement ℚ} (h : p.source.Normalized)
    (hd : 0 ≤ p.duration) : p.toInstruction.Normalized := by
  unfold toInstruction
  simp only
  split
  · -- only a positive delay is folded into the keyframes
    rename_i hstretched
    have hdelay : 0 < p.delay := by
      simp only [isStretched, Bool.and_eq_true, decide_eq_true_eq] at hstretched
      exact hstretched.1.2
    have hoffsets := offsets_stretchedKeyframes h.first
    rw [Instruction.normalized_iff, ← List.length_map Keyframe.offset, Instruction.offsets,
      hoffsets]
    refine ⟨?_, List.pairwise_cons.2 ⟨?_, ?_⟩, rfl, ?_⟩
    · have htwo := h.two_le
      rw [List.length_cons, List.length_map, Instruction.offsets, List.length_map]
      omega
    · intro x hx
      obtain ⟨offset, hoffset, rfl⟩ := List.mem_map.1 hx
      exact stretchOffset_nonneg hd hdelay (h.nonneg offset hoffset)
    · exact List.pairwise_map.2 (h.ascending.imp fun hab => stretchOffset_mono hd hdelay hab)
    · rw [List.getLast?_cons, List.getLast?_map, h.last, Option.map_some,
        stretchOffset_one hd hdelay]
      rfl
  · exact ⟨h.two_le, h.ascending, h.first, h.last⟩

end Placement

/-! ### Runs -/

/-- What holds of every placement, if the delegated animations are in order. -/
def Placement.Sound (p : Placement ℚ) : Prop :=
  0 ≤ p.duration ∧ (1 < p.source.keyframes.length → p.source.Normalized)

section Runs

variable {host : Host} {root : ElementId} {tree : Animation ℚ} {setup : Setup ℚ}
  {delegated : InstructionMap ℚ} {D : Placement ℚ → Prop}

/-- The final styles do not touch the clocks. -/
theorem Walk.clocked_finish {w : Walk ℚ} (h : w.score.Clocked D) :
    (w.finish root setup).score.Clocked D := by
  unfold Walk.finish
  split
  · exact h
  · split
    · rename_i id _
      -- to write styles takes no time
      let c : Change ℚ := .write [.values setup.finalStyles] none w.scope.options.params
      have hwrite : (w.score.scene id).timeline.Onward ((w.score.scene id).change c).timeline :=
        Scene.onward_change (h.timelines id) trivial
      exact h.edit (f := (·.change c)) hwrite.clocked
    · exact h

/-- The clocks of a clean run are in order when it is over. -/
theorem Animation.Tame.clocked_run (h : tree.Tame (setup.setting host delegated) D)
    (hclean : (compile host root tree setup delegated).diagnostics = []) :
    (Walk.run (setup.setting host delegated) root tree setup []).score.Clocked D := by
  have hafter := diagnostics_run_of_clean hclean
  have hstart := (tree.effect (setup.setting host delegated)
    (.start root setup [])).precedes.clean hafter
  exact ((h.proceeds _).spans (Walk.valid_start root setup []) (Walk.clocked_start hstart)
    hafter).clocked

/-- Entries of a clocked score that have anything to show have normalized instructions. -/
theorem Score.Clocked.normalized {s finished : Score ℚ} (h : s.Clocked Placement.Sound)
    (hf : finished.Clocked Placement.Sound) {e : Entry ℚ} (he : e ∈ s.animated) :
    (finished.instruction e).Normalized ∧
      ((finished.instruction e).isSubTimeline = false →
        (finished.instruction e).offsets.Pairwise (· < ·)) := by
  obtain ⟨hmem, hshows⟩ := List.mem_filter.1 he
  -- the instruction of a timeline is read off its clock; that of a placement is a moved one
  cases e with
  | timeline id =>
    obtain ⟨hnormalized, hstrict⟩ := Scene.normalized_toInstruction (s := finished.scene id)
      (hf.timelines id)
    exact ⟨hnormalized, fun _ => hstrict⟩
  | placed p =>
    obtain ⟨hduration, hsource⟩ := h.placed p hmem
    have hnormalized := Placement.normalized_toInstruction (hsource (of_decide_eq_true hshows))
      hduration
    refine ⟨hnormalized, fun hsub => ?_⟩
    exact absurd (p.isSubTimeline_toInstruction.symm.trans hsub) (by decide)

/-- The instructions of a clean run are normalized, unless the only one is for a root that
has nothing to show.  Those that the run has made have no two keyframes at the same
offset. -/
theorem normalized_compile (hvalid : tree.validate = .ok ())
    (hclean : (compile host root tree setup delegated).diagnostics = [])
    (hdelays : ∀ o ∈ tree.childOptions, 0 ≤ Walk.delayOf (some o))
    (hdurations : ∀ o ∈ tree.childOptions, ∀ d ∈ o.duration, 0 ≤ d.milliseconds)
    (hdelegated : ∀ e, ∀ i ∈ delegated.instructions e,
      0 ≤ i.duration ∧ 0 ≤ i.delay ∧ (1 < i.keyframes.length → i.Normalized)) :
    let instructions := (compile host root tree setup delegated).instructions
    instructions = [.empty root setup.delay] ∨
      ∀ i ∈ instructions,
        i.Normalized ∧ (i.isSubTimeline = false → i.offsets.Pairwise (· < ·)) := by
  intro instructions
  -- delegated instructions are placed with the duration of the options, or their own
  have htame : tree.Tame (setup.setting host delegated) Placement.Sound := by
    refine ⟨hvalid, hdelays, fun e i hi => (hdelegated e i hi).2.1, ?_⟩
    intro o ho e i hi delay stretch
    obtain ⟨hduration, _, hnormalized⟩ := hdelegated e i hi
    refine ⟨?_, hnormalized⟩
    cases hd : o.duration with
    | none => exact hduration
    | some d => exact hdurations o ho d hd
  have hrun := htame.clocked_run hclean
  by_cases hempty : instructions = [.empty root setup.delay]
  · exact .inl hempty
  · refine .inr fun i hi => ?_
    obtain ⟨e, he, rfl⟩ := (mem_instructions hi).resolve_left hempty
    exact hrun.normalized (Walk.clocked_finish hrun) he

end Runs

/-- An element hands over to an animation that it already has, for a shorter time. -/
def handover : Animation ℚ :=
  .sequence
    [.animate (.ofDuration 100) (.style (.ofEntries [("p", .number 1)])),
      .animateChild (some ((Options.none.withDelay (.number 10)).withDuration (.number 50)))]
    none

/-- The animation that it already has; its delay is to be folded into its keyframes. -/
def sliding : Instruction ℚ :=
  { Instruction.empty ⟨1⟩ 20 with
    keyframes := [⟨0, none, ∅⟩, ⟨1 / 2, none, ∅⟩, ⟨1, none, ∅⟩]
    duration := 100
    stretchStart := true }

/-- For such a tree there are two instructions, and both are normalized. -/
theorem normalized_compile_handover :
    let delegated : InstructionMap ℚ := .ofList [(⟨1⟩, [sliding])]
    let c := compile (fun _ _ _ => []) ⟨1⟩ handover .standard delegated
    handover.validate = .ok () ∧ c.diagnostics = [] ∧
      (∀ o ∈ handover.childOptions, 0 ≤ Walk.delayOf (some o)) ∧
        (∀ o ∈ handover.childOptions, ∀ d ∈ o.duration, 0 ≤ d.milliseconds) ∧
          (∀ e, ∀ i ∈ delegated.instructions e,
            0 ≤ i.duration ∧ 0 ≤ i.delay ∧ (1 < i.keyframes.length → i.Normalized)) ∧
            c.instructions.length = 2 ∧
              ∀ i ∈ c.instructions,
                i.Normalized ∧ (i.isSubTimeline = false → i.offsets.Pairwise (· < ·)) := by
  intro delegated c
  have hvalid : handover.validate = .ok () := rfl
  have hclean : c.diagnostics = [] := by
    decide +kernel
  have hdelays : ∀ o ∈ handover.childOptions, 0 ≤ Walk.delayOf (some o) := by
    decide +kernel
  have hdurations : ∀ o ∈ handover.childOptions, ∀ d ∈ o.duration, 0 ≤ d.milliseconds := by
    decide +kernel
  have hdelegated : ∀ e, ∀ i ∈ delegated.instructions e,
      0 ≤ i.duration ∧ 0 ≤ i.delay ∧ (1 < i.keyframes.length → i.Normalized) := by
    intro e i hi
    rw [List.mem_singleton.1 (InstructionMap.mem_of_mem_instructions_ofList hi)]
    decide +kernel
  have hlength : c.instructions.length = 2 := by
    decide +kernel
  refine ⟨hvalid, hclean, hdelays, hdurations, hdelegated, hlength, ?_⟩
  rcases normalized_compile hvalid hclean hdelays hdurations hdelegated with hone | hall
  · -- the only instruction for a root with nothing to show would be a single one
    have hcontra : c.instructions.length = 1 := congrArg List.length hone
    omega
  · exact hall

end Choreography
