/-
Choreography/Proofs/Tame.lean

Trees whose times are not negative.

Fixed timings are validated, timings that are read are reported if they are negative, and
most delays count only if they are positive.  What remains are the options for delegated
animations and the delegated animations themselves; a tree is `Tame` if these are in order
as well.  Valid keyframes have ascending offsets between 0 and 1.
-/
import Choreography.Proofs.Tree
import Choreography.Quantity.Exact

namespace Choreography

variable {D : Placement ℚ → Prop} {setting : Setting ℚ}

/-! ### Trees -/

/-- A valid tree whose delegated animations have no negative delays and are placed as they
should be. -/
structure Animation.Tame (setting : Setting ℚ) (D : Placement ℚ → Prop) (tree : Animation ℚ) :
    Prop where
  valid : tree.validate = .ok ()
  delays : ∀ o ∈ tree.childOptions, 0 ≤ Walk.delayOf (some o)
  delegated : ∀ e, ∀ i ∈ setting.delegated.instructions e, 0 ≤ i.delay
  placed : ∀ o ∈ tree.childOptions, ∀ e, ∀ i ∈ setting.delegated.instructions e,
    ∀ delay stretch, D ⟨i, (o.duration.map Scalar.milliseconds).getD i.duration, delay, stretch⟩

/-- What is compiled with a tame tree is tame. -/
theorem Animation.Tame.inner {tree inner : Animation ℚ} (h : tree.Tame setting D)
    (hv : inner.validate = .ok ()) (ho : inner.childOptions ⊆ tree.childOptions) :
    inner.Tame setting D :=
  ⟨hv, fun o hmem => h.delays o (ho hmem), h.delegated, fun o hmem => h.placed o (ho hmem)⟩

/-- So are the steps of a sequence or a group. -/
theorem Animation.Tame.steps {tree : Animation ℚ} {steps : List (Animation ℚ)}
    (h : tree.Tame setting D) (hv : tree.validate = validateSteps steps)
    (ho : tree.childOptions = childOptionsOf steps) {step : Animation ℚ} (hstep : step ∈ steps) :
    step.Tame setting D := by
  have hsteps := h.valid
  rw [hv, validateSteps_eq_ok] at hsteps
  refine h.inner (hsteps step hstep) fun o hmem => ?_
  rw [ho]
  exact mem_childOptionsOf.2 ⟨step, hstep, hmem⟩

/-! ### Timings -/

/-- Valid timings are not negative. -/
theorem nonneg_of_validateTimings {t : Timings ℚ} (h : validateTimings t = .ok ()) :
    0 ≤ t.duration ∧ 0 ≤ t.delay := by
  unfold validateTimings at h
  split at h
  · cases h
  · rename_i hduration
    split at h
    · cases h
    · rename_i hdelay
      simp only [Bool.or_eq_true, decide_eq_true_eq, not_or, not_lt] at hduration hdelay
      exact ⟨hduration.2, hdelay.2⟩

/-- Whatever is read without a report is not negative. -/
theorem nonneg_of_read {text : String} (h : (Timings.read (τ := ℚ) text false).2 = []) :
    0 ≤ (Timings.read (τ := ℚ) text false).1.duration ∧
      0 ≤ (Timings.read (τ := ℚ) text false).1.delay := by
  unfold Timings.read at h ⊢
  split
  · exact ⟨le_rfl, le_rfl⟩
  · rename_i t ht
    rw [ht] at h
    -- a negative part would have been reported
    by_cases hduration : t.duration < 0
    · simp [Timings.negativeParts, hduration] at h
    · by_cases hdelay : t.delay < 0
      · simp [Timings.negativeParts, hdelay] at h
      · exact ⟨not_lt.1 hduration, not_lt.1 hdelay⟩

theorem validateTimings_of_validateAnimate {t : Timings ℚ} {target : Target ℚ}
    (h : validateAnimate (.fixed t) target = .ok ()) : validateTimings t = .ok () := by
  cases ht : validateTimings t with
  | ok u => rfl
  | error v => simp [validateAnimate, ht, bind, Except.bind] at h

/-! ### Keyframes -/

/-- The keyframes of a valid animated step are valid. -/
theorem validateKeyframes_of_validateAnimate {timing : Timing ℚ} {steps : List (StyleStep ℚ)}
    (h : validateAnimate timing (.keyframes steps) = .ok ()) :
    validateKeyframes steps = .ok () := by
  cases timing with
  | fixed t =>
    have ht := validateTimings_of_validateAnimate h
    simpa [validateAnimate, ht, bind, Except.bind] using h
  | expression text => simpa [validateAnimate, bind, Except.bind] using h

theorem pairwise_of_isAscending {xs : List ℚ} (h : isAscending xs = true) :
    xs.Pairwise (· ≤ ·) := by
  -- only neighbours are compared, which is enough as the order is transitive
  rw [← List.isChain_iff_pairwise]
  induction xs with
  | nil => exact .nil
  | cons x xs ih =>
    cases xs with
    | nil => exact .singleton x
    | cons y ys =>
      rw [isAscending, Bool.and_eq_true, decide_eq_true_eq] at h
      exact .cons_cons h.1 (ih h.2)

/-- Each keyframe has an offset, be it given or not. -/
theorem length_resolvedOffsets {τ : Type} [Quantity τ] (steps : List (StyleStep τ)) :
    (resolvedOffsets steps).length = steps.length := by
  unfold resolvedOffsets
  split
  · unfold evenOffsets
    split <;> simp
  · simp

/-- Valid keyframes have ascending offsets between 0 and 1. -/
theorem offsets_of_validateKeyframes {steps : List (StyleStep ℚ)}
    (h : validateKeyframes steps = .ok ()) :
    (∀ o ∈ resolvedOffsets steps, 0 ≤ o ∧ o ≤ 1) ∧ (resolvedOffsets steps).Pairwise (· ≤ ·) := by
  unfold validateKeyframes at h
  simp only at h
  split at h
  · cases h
  · split at h
    · cases h
    · -- none of the three checks may fail: the number of the offsets, their range, and their order
      rename_i hrange
      split at h
      · cases h
      · rename_i hascending
        refine ⟨?_, pairwise_of_isAscending (by simpa using hascending)⟩
        simpa using hrange

/-! ### The later of two times -/

theorem later_eq_max (a b : ℚ) : Quantity.later a b = max a b := by
  unfold Quantity.later
  split
  · rename_i h
    exact (max_eq_right (le_of_lt h)).symm
  · rename_i h
    simpa using (max_eq_left (not_lt.1 h)).symm

theorem le_later_left (a b : ℚ) : a ≤ Quantity.later a b := by
  rw [later_eq_max]
  exact le_max_left a b

theorem le_later_right (a b : ℚ) : b ≤ Quantity.later a b := by
  rw [later_eq_max]
  exact le_max_right a b

end Choreography
