/-
Choreography/Proofs/Pruning/Run.lean

Nodes that only describe do not show in what is compiled.

A run is paired with itself when it begins, the tree and what is left of it keep the two runs in
step, and in the end the same entries have something to show and the same timeline takes the
final styles.  So the instructions are the same, and so is what is reported: nothing
(`compile_eq_of_prunesTo`).

Valid timings are not negative, and neither are those that a text gives without anything being
reported.  The proof rests on this: if the clock of a branch could run back, a group would end
with its longest branch, which might be one that only describes.
-/
import Choreography.Proofs.Overlap
import Choreography.Proofs.Pruning.Nodes

namespace Choreography

section Exactly

variable {τ : Type} [Quantity τ] {ρ : Pairing}

/-! ### The beginning -/

/-- Every timeline belongs together with itself. -/
def Pairing.same (n : Nat) : Pairing where
  pair i j := i < n ∧ j = i
  spare _ := False
  extra _ := False

omit [Quantity τ] in
theorem Pairing.lists_same {n : Nat} {es : List (Entry τ)}
    (h : ∀ id, .timeline id ∈ es → id < n) : (Pairing.same n).Lists es es := by
  induction es using List.reverseRecOn with
  | nil => exact .nil
  | append_singleton es e ih =>
    refine .both (ih fun id hid => h id (List.mem_append_left _ hid)) ?_
    cases e with
    | timeline id => exact .timeline ⟨h id (by simp), rfl⟩
    | placed p => exact .placed p

/-- A score is paired with itself, and nothing is left over. -/
theorem Score.paired_self {s : Score τ} (h : s.Listed) : s.Paired (.same s.timelines.length) s where
  pair := by
    rintro i j ⟨hi, rfl⟩
    exact ⟨hi, hi, rfl⟩
  unique := by
    rintro i j i' j' ⟨-, rfl⟩ ⟨-, rfl⟩
    exact .rfl
  spare h := h.elim
  extra h := h.elim
  shared := rfl
  listed := Pairing.lists_same h

theorem Walk.Sound.paired_self {w : Walk τ} (h : w.Sound) :
    w.Paired (.same w.score.timelines.length) w where
  score := Score.paired_self h.valid.listed
  scope := ⟨⟨h.valid.timeline, rfl⟩, rfl⟩
  diagnostics := rfl
  sound := h
  sound' := h

/-! ### The end -/

omit [Quantity τ] in
/-- The first entry of its kind is paired. -/
theorem Pairing.find?_entries {es es' : List (Entry τ)} (h : List.Forall₂ ρ.Entries es es')
    {p q : Entry τ → Bool} (hpq : ∀ {e e'}, ρ.Entries e e' → q e' = p e) :
    Option.Rel ρ.Entries (es.find? p) (es'.find? q) := by
  -- entry by entry, for neither list has one that the other has not
  induction h with
  | nil => exact .none
  | cons he _ ih =>
    rw [List.find?_cons, List.find?_cons, hpq he]
    split
    · exact .some he
    · exact ih

namespace Score

variable {s u : Score τ}

/-- The final styles go to timelines that belong together. -/
theorem Paired.finalTimeline? (h : s.Paired ρ u) (root : ElementId) :
    Option.Rel ρ.pair (s.finalTimeline? root) (u.finalTimeline? root) := by
  have hfind := Pairing.find?_entries (List.rel_reverse h.animated)
    (p := (s.element · = root)) (q := (u.element · = root)) fun he => by rw [h.element_eq he]
  unfold Score.finalTimeline?
  generalize s.animated.reverse.find? _ = first, u.animated.reverse.find? _ = first' at hfind ⊢
  cases hfind with
  | none => exact .none
  | some he =>
    -- a placement is found in both lists or in neither, and takes no styles
    cases he with
    | placed p => exact .none
    | timeline hp =>
      dsimp only
      rw [(h.pair hp).2.2]
      split
      · exact .none
      · exact .some hp

/-- The same is shown. -/
theorem Paired.map_instruction (h : s.Paired ρ u) {es es' : List (Entry τ)}
    (hes : List.Forall₂ ρ.Entries es es') : es'.map u.instruction = es.map s.instruction := by
  induction hes with
  | nil => rfl
  | cons he _ ih => rw [List.map_cons, List.map_cons, h.instruction_eq he, ih]

end Score

/-- Paired walks are finished alike. -/
theorem Walk.Paired.finish {w u : Walk τ} (h : w.Paired ρ u) (root : ElementId)
    (setup : Setup τ) :
    (w.finish root setup).score.Paired ρ (u.finish root setup).score ∧
      (u.finish root setup).diagnostics = (w.finish root setup).diagnostics := by
  have hfinal := h.score.finalTimeline? root
  unfold Walk.finish
  generalize w.score.finalTimeline? root = final, u.score.finalTimeline? root = final' at hfinal ⊢
  split
  · exact ⟨h.score, h.diagnostics⟩
  · cases hfinal with
    | none => exact ⟨h.score, h.diagnostics⟩
    | some hp => exact h.written hp [.values setup.finalStyles] none

end Exactly

/-! ### Runs -/

section Runs

variable {host : Host} {root : ElementId} {tree tree' : Animation ℚ} {setup : Setup ℚ}
  {delegated : InstructionMap ℚ}

/-- The walks with which two runs end. -/
theorem Walk.paired_run {setting : Setting ℚ} (hvalid : tree.validate = .ok ())
    (hclean : (run setting root tree setup []).diagnostics = []) (h : tree.PrunesTo tree') :
    ∃ ρ : Pairing, (run setting root tree setup []).Paired ρ (run setting root tree' setup []) := by
  have hstep : InStep (start root setup []) (start root setup []) (run setting root tree setup [])
      (run setting root tree' setup []) := Animation.inStep hvalid h _ _
  -- both runs begin with the same walk, which is paired with itself
  have hsound : (start root setup []).Sound :=
    ⟨valid_start root setup [], housed_of_start (.refl _)⟩
  have hclocked := clocked_start (D := fun _ => True) (hstep.effect.precedes.clean hclean)
  obtain ⟨ρ, -, hpaired⟩ := (hstep.keeps hsound.paired_self hclean
    (hclocked.timelines _).currentTime_nonneg).paired
  exact ⟨ρ, hpaired⟩

/-- When triggers, states and transitions are deleted from a valid tree that is compiled without
diagnostics, what is compiled stays the same. -/
theorem compile_eq_of_prunesTo (hvalid : tree.validate = .ok ())
    (hclean : (compile host root tree setup delegated).diagnostics = [])
    (h : tree.PrunesTo tree') :
    compile host root tree' setup delegated = compile host root tree setup delegated := by
  obtain ⟨ρ, hpaired⟩ := Walk.paired_run hvalid (diagnostics_run_of_clean hclean) h
  obtain ⟨hfinished, hreports⟩ := hpaired.finish root setup
  have hanimated := hpaired.score.animated
  let w := Walk.run (setup.setting host delegated) root tree setup []
  let u := Walk.run (setup.setting host delegated) root tree' setup []
  -- the empty instruction stands for nothing animated, in both runs or in neither
  have hempty : u.score.animated.isEmpty = w.score.animated.isEmpty := by
    rw [Bool.eq_iff_iff, List.isEmpty_iff_length_eq_zero, List.isEmpty_iff_length_eq_zero,
      hanimated.length_eq]
  have hshown := hfinished.map_instruction hanimated
  show (⟨if u.score.animated.isEmpty then [.empty root setup.delay]
      else u.score.animated.map (u.finish root setup).score.instruction,
    (u.finish root setup).diagnostics⟩ : Compiled ℚ) = _
  rw [hempty, hshown, hreports]
  rfl

end Runs

/-- A delayed group in which something is animated beside a trigger and a state, and one in which
there are only states. -/
def annotated : Animation ℚ :=
  .sequence
    [.state ⟨"closed", .blank⟩,
      .group
        [.trigger "toggle" [] [.mk "closed => open" (.sequence [.state ⟨"open", .blank⟩,
            .style (.ofEntries [("a", .number 1)])] none) none],
          .animate (.ofDuration 100) (.style (.ofEntries [("a", .number 2)])),
          .state ⟨"open", .blank⟩]
        (some (Options.none.withDelay (.number 50))),
      .group [.state ⟨"closed", .blank⟩, .state ⟨"open", .blank⟩]
        (some (Options.none.withDelay (.number 30))),
      .animate (.ofDuration 100) (.style (.ofEntries [("a", .number 3)]))]
    none

/-- What is left of it. -/
def plain : Animation ℚ :=
  .sequence
    [.group [.animate (.ofDuration 100) (.style (.ofEntries [("a", .number 2)]))]
        (some (Options.none.withDelay (.number 50))),
      .group [.state ⟨"open", .blank⟩] (some (Options.none.withDelay (.number 30))),
      .animate (.ofDuration 100) (.style (.ofEntries [("a", .number 3)]))]
    none

theorem annotated_prunesTo_plain : annotated.PrunesTo plain :=
  .sequence
    (.delete rfl
      (.keep (.group (.delete rfl (.keep (.animate _ _) (.delete rfl .nil))) (by simp))
        (.keep (.group (.delete rfl (.keep (.state _) .nil)) (by simp))
          (.keep (.animate _ _) .nil))))
    (by simp)

/-- The two are compiled to the same instructions. -/
theorem compile_plain_eq_annotated :
    annotated.validate = .ok () ∧
      (compile (fun _ _ _ => []) ⟨1⟩ annotated .standard ∅).diagnostics = [] ∧
        annotated.PrunesTo plain ∧
          compile (fun _ _ _ => []) ⟨1⟩ plain .standard ∅ =
            compile (fun _ _ _ => []) ⟨1⟩ annotated .standard ∅ := by
  have hvalid : annotated.validate = .ok () := rfl
  have hclean : (compile (fun _ _ _ => []) ⟨1⟩ annotated .standard ∅).diagnostics = [] := by
    decide +kernel
  exact ⟨hvalid, hclean, annotated_prunesTo_plain,
    compile_eq_of_prunesTo hvalid hclean annotated_prunesTo_plain⟩

/-- A group with a delay takes that long for a step that does nothing, and no time without
steps. -/
example :
    let moved : Animation ℚ := .animate (.ofDuration 100) (.style (.ofEntries [("a", .number 1)]))
    let delayed (steps : List (Animation ℚ)) : Animation ℚ :=
      .sequence [.group steps (some (Options.none.withDelay (.number 50))), moved] none
    compile (fun _ _ _ => []) ⟨1⟩ (delayed []) .standard ∅ ≠
      compile (fun _ _ _ => []) ⟨1⟩ (delayed [.state ⟨"open", .blank⟩]) .standard ∅ := by
  decide +kernel

end Choreography
