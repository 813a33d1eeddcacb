/-
Choreography/Proofs/Run.lean

A run from its beginning to its instructions.

The score of a run is what operations make of the empty one (`Walk.run_operations`), and
so is the score from which the instructions are read off.  Every instruction comes from an
entry that has something to show, unless there is none (`mem_instructions`).
-/
import Choreography.Proofs.Visit

namespace Choreography

variable {τ : Type} [Quantity τ]

namespace Walk

/-! ### The beginning -/

/-- The walk with the root timeline, before anything has happened to it. -/
def blank (root : ElementId) (setup : Setup τ) (sink : List Diagnostic) : Walk τ where
  scope :=
    { Scope.begin root (0 : TimelineId) with
      options :=
        { duration := setup.options.duration.map Scalar.milliseconds
          delay := some setup.delay
          params := setup.params } }
  score := Score.empty.perform (.begin root 0)
  diagnostics := sink

theorem valid_blank (root : ElementId) (setup : Setup τ) (sink : List Diagnostic) :
    (blank root setup sink).Valid where
  timeline := by
    show 0 < (Score.enter _ _ _ _).2.timelines.length
    rw [Score.length_timelines_enter]
    exact Nat.succ_pos _
  element := rfl
  listed := Score.listed_perform _ fun id hid => by cases hid

/-- A delay does not change the scope. -/
theorem scope_delay (time : τ) (w : Walk τ) : (w.delay time).scope = w.scope := by
  unfold delay
  split <;> rfl

theorem diagnostics_delay (time : τ) (w : Walk τ) :
    (w.delay time).diagnostics = w.diagnostics := by
  unfold delay
  split <;> rfl

theorem order_delay (time : τ) (w : Walk τ) : (w.delay time).score.order = w.score.order := by
  unfold delay
  split <;> rfl

/-- A run starts with its delay and its starting styles. -/
theorem start_eq (root : ElementId) (setup : Setup τ) (sink : List Diagnostic) :
    start root setup sink = ((blank root setup sink).delay setup.delay).writeAt
      ((blank root setup sink).delay setup.delay).scope.timeline
      [.values setup.startingStyles] none := by
  rw [scope_delay]
  rfl

/-- What comes before the tree is an effect. -/
theorem effect_start (root : ElementId) (setup : Setup τ) (sink : List Diagnostic) :
    Effect (blank root setup sink) (start root setup sink) := by
  rw [start_eq]
  exact (Effect.compositional.delay _ _).trans (Effect.compositional.writeAt _ _ _)

theorem valid_start (root : ElementId) (setup : Setup τ) (sink : List Diagnostic) :
    (start root setup sink).Valid :=
  (effect_start root setup sink).valid (valid_blank root setup sink)

/-! ### The end -/

/-- The final styles take back nothing. -/
theorem precedes_finish (root : ElementId) (setup : Setup τ) (w : Walk τ) :
    Precedes w (w.finish root setup) := by
  unfold finish
  split
  · exact .refl w
  · split
    · rename_i id _
      -- they are written in one operation, if there is a timeline for them
      exact ⟨⟨[.change id (.write [.values setup.finalStyles] none w.scope.options.params)], rfl⟩,
        List.prefix_append _ _⟩
    · exact .refl w

/-- Nor do they list anything. -/
theorem order_finish (root : ElementId) (setup : Setup τ) (w : Walk τ) :
    (w.finish root setup).score.order = w.score.order := by
  unfold finish
  split
  · rfl
  · split <;> rfl

/-- The score of a finished run comes about by operations. -/
theorem finish_operations (setting : Setting τ) (root : ElementId) (tree : Animation τ)
    (setup : Setup τ) (sink : List Diagnostic) :
    ∃ ops : List (Operation τ),
      ((run setting root tree setup sink).finish root setup).score =
        Score.empty.performAll ops := by
  -- from the blank walk, whose score is that of one operation
  have hrun : Precedes (blank root setup sink)
      ((run setting root tree setup sink).finish root setup) :=
    ((effect_start root setup sink).trans (tree.effect setting _)).precedes.trans
      (precedes_finish root setup _)
  obtain ⟨ops, hops⟩ := hrun.operations
  exact ⟨.begin root 0 :: ops, hops⟩

end Walk

/-! ### Instructions -/

section Compile

variable {host : Host} {root : ElementId} {tree : Animation τ} {setup : Setup τ}
  {delegated : InstructionMap τ}

/-- A clean result means that nothing was reported all along. -/
theorem diagnostics_run_of_clean
    (h : (compile host root tree setup delegated).diagnostics = []) :
    (Walk.run (setup.setting host delegated) root tree setup []).diagnostics = [] :=
  (Walk.precedes_finish root setup _).clean h

/-- Where instructions come from. -/
theorem mem_instructions {i : Instruction τ}
    (h : i ∈ (compile host root tree setup delegated).instructions) :
    (compile host root tree setup delegated).instructions = [.empty root setup.delay] ∨
      let w := Walk.run (setup.setting host delegated) root tree setup []
      ∃ e ∈ w.score.animated, i = (w.finish root setup).score.instruction e := by
  simp only [compile, compileInto] at h ⊢
  -- where nothing is animated, there is an empty instruction in place of none
  split at h
  · rename_i hempty
    rw [if_pos hempty]
    exact .inl rfl
  · obtain ⟨e, he, rfl⟩ := List.mem_map.1 h
    exact .inr ⟨e, he, rfl⟩

/-- Whatever is animated becomes an instruction. -/
theorem instruction_mem_instructions {e : Entry τ}
    (he : e ∈ (Walk.run (setup.setting host delegated) root tree setup []).score.animated) :
    ((Walk.run (setup.setting host delegated) root tree setup []).finish
      root setup).score.instruction e ∈ (compile host root tree setup delegated).instructions := by
  simp only [compile, compileInto]
  rw [if_neg (by simpa using List.ne_nil_of_mem he)]
  exact List.mem_map_of_mem he

end Compile

end Choreography
