/-
Choreography/Proofs/Finish.lean

The keyframes of a finished timeline.

Sorting only rearranges (`perm_sortByOffset`), and a timeline that takes no time shows its
keyframe twice.  So the styles on the keyframes of the instruction are those on the
keyframes of the timeline, each completed with the backfill (`mem_styles_toInstruction`).
-/
import Mathlib
import Choreography.Quantity.Exact
import Choreography.Timeline

namespace Choreography

variable {τ : Type} [Quantity τ]

namespace Scene

/-- Keyframes are sorted by insertion. -/
theorem sortByOffset_eq (ks : List (Keyframe τ)) :
    sortByOffset ks =
      ks.insertionSort fun a b => Quantity.sortsBefore a.offset b.offset = true := by
  have hinsert : ∀ (k : Keyframe τ) (ks : List (Keyframe τ)),
      insertByOffset k ks =
        ks.orderedInsert (fun a b => Quantity.sortsBefore a.offset b.offset = true) k := by
    intro k ks
    induction ks with
    | nil => rfl
    | cons other rest ih => rw [insertByOffset, ih, List.orderedInsert_cons]
  induction ks with
  | nil => rfl
  | cons k ks ih =>
    rw [List.insertionSort_cons, ← ih, ← hinsert]
    rfl

theorem perm_sortByOffset (ks : List (Keyframe τ)) : (sortByOffset ks).Perm ks := by
  rw [sortByOffset_eq]
  exact List.perm_insertionSort _ ks

/-- The keyframes of a timeline as fractions of its duration, before they are sorted. -/
def fractions (s : Scene τ) : List (Keyframe τ) :=
  let t := s.flush.timeline
  t.keyframes.map fun k =>
    { offset := if t.duration == 0 then 0 else k.time / t.duration
      easing := k.easing
      styles := t.backfill.insertAll k.styles.entries }

/-- A fraction of the duration is the time that it was made from. -/
theorem fraction_mul {time duration : ℚ} (hnonneg : 0 ≤ time) (hle : time ≤ duration) :
    (if duration == 0 then 0 else time / duration) * duration = time := by
  by_cases hzero : duration = 0
  · subst hzero
    rw [mul_zero]
    exact le_antisymm hnonneg hle
  · rw [if_neg (by simpa using hzero), div_mul_cancel₀ _ hzero]

/-- Whether a timeline takes no time. -/
def isInstant (s : Scene τ) : Bool :=
  s.flush.timeline.keyframes.length = 1 && s.flush.timeline.duration == 0

/-- An instant is shown by two keyframes, at the beginning and at the end. -/
theorem keyframes_toInstruction (s : Scene τ) :
    s.toInstruction.keyframes =
      if s.isInstant then
        sortByOffset s.fractions ++ ((sortByOffset s.fractions).take 1).map ({ · with offset := 1 })
      else sortByOffset s.fractions := by
  -- the offset is 0 if the timeline is an instant or takes no time, and the second is enough
  have habsorb : ∀ b c : Bool, (b && c || c) = c := by decide
  simp only [toInstruction, habsorb]
  rfl

/-- A keyframe of an instruction shows the styles of a keyframe, completed by what is backfilled. -/
theorem mem_styles_toInstruction {s : Scene τ} {styles : StyleMap τ} :
    (∃ k ∈ s.toInstruction.keyframes, k.styles = styles) ↔
      ∃ k ∈ s.flush.timeline.keyframes,
        s.flush.timeline.backfill.insertAll k.styles.entries = styles := by
  have hsorted : (∃ k ∈ sortByOffset s.fractions, k.styles = styles) ↔
      ∃ k ∈ s.flush.timeline.keyframes,
        s.flush.timeline.backfill.insertAll k.styles.entries = styles := by
    simp [(perm_sortByOffset _).mem_iff, fractions]
  rw [← hsorted, keyframes_toInstruction]
  split
  · constructor
    · rintro ⟨k, hk, rfl⟩
      rcases List.mem_append.1 hk with hk | hk
      · exact ⟨k, hk, rfl⟩
      · -- the second keyframe of an instant is the first one once more
        obtain ⟨k', hk', rfl⟩ := List.mem_map.1 hk
        exact ⟨k', List.mem_of_mem_take hk', rfl⟩
    · rintro ⟨k, hk, rfl⟩
      exact ⟨k, List.mem_append_left _ hk, rfl⟩
  · exact Iff.rfl

end Scene

/-- What was delegated says so. -/
theorem Placement.isSubTimeline_toInstruction (p : Placement τ) :
    p.toInstruction.isSubTimeline = true := by
  unfold toInstruction
  split <;> rfl

end Choreography
