/-
Choreography/Proofs/Stretch.lean

A delay that is folded into the keyframes.

The first keyframe is held for the time of the delay, and what was shown at some time after the
delay is now shown at a fraction of the delay and the duration together (`Placement.stretchOffset`).
As this fraction is rounded to three places, the time is missed by no more than half a thousandth
of the whole (`abs_toThousandths_sub_le`).

Main result: `stretch_keeps_times`.
-/
import Choreography.Proofs.Normalized

namespace Choreography

/-! ### Rounding -/

/-- A number is at most a half away from the whole number that it is rounded to. -/
theorem abs_exactRound_sub_le (a : ℚ) : |Exact.round a - a| ≤ 1 / 2 := by
  -- the library rounds halves up, as is done here above zero
  have hhalf : ∀ b : ℚ, |(⌊b + 1 / 2⌋ : ℚ) - b| ≤ 1 / 2 := by
    intro b
    rw [← round_eq, abs_sub_comm]
    exact abs_sub_round b
  unfold Exact.round
  split
  · -- below zero the mirror image is rounded
    rw [← abs_neg, neg_sub', neg_neg]
    exact hhalf (-a)
  · exact hhalf a

/-- An offset is at most half a thousandth away from what it is rounded to. -/
theorem abs_toThousandths_sub_le (a : ℚ) : |Quantity.toThousandths a - a| ≤ 1 / 2000 := by
  -- the error of the scaled number, scaled back
  have hscale : Quantity.toThousandths a - a =
      (Exact.round (a * ((1000 : ℕ) : ℚ)) - a * ((1000 : ℕ) : ℚ)) / 1000 := by
    show Exact.round (a * ((1000 : ℕ) : ℚ)) / ((1000 : ℕ) : ℚ) - a = _
    push_cast
    ring
  have hhalf := abs_exactRound_sub_le (a * ((1000 : ℕ) : ℚ))
  rw [hscale, abs_div, abs_of_pos (by norm_num : (0 : ℚ) < 1000), div_le_iff₀ (by norm_num)]
  linarith

/-! ### Keyframes -/

namespace Placement

variable {p : Placement ℚ}

theorem stretchOffset_le_one (hd : 0 ≤ p.duration) (hdelay : 0 < p.delay) {offset : ℚ}
    (h : offset ≤ 1) : p.stretchOffset offset ≤ 1 := by
  rw [← stretchOffset_one hd hdelay]
  exact stretchOffset_mono hd hdelay h

/-- The time of an offset is kept but for rounding. -/
theorem abs_stretchOffset_sub_le (hd : 0 ≤ p.duration) (hdelay : 0 < p.delay) (offset : ℚ) :
    |p.stretchOffset offset * (p.duration + p.delay) - (p.delay + offset * p.duration)| ≤
      1 / 2000 * (p.duration + p.delay) := by
  have htotal : 0 < p.duration + p.delay := add_pos_of_nonneg_of_pos hd hdelay
  have hround := abs_toThousandths_sub_le ((p.delay + offset * p.duration) / (p.duration + p.delay))
  -- the error of the offset, times the whole duration
  have hscale : p.stretchOffset offset * (p.duration + p.delay) - (p.delay + offset * p.duration) =
      (p.stretchOffset offset - (p.delay + offset * p.duration) / (p.duration + p.delay)) *
        (p.duration + p.delay) := by
    rw [sub_mul, div_mul_cancel₀ _ htotal.ne']
  rw [hscale, abs_mul, abs_of_pos htotal]
  exact mul_le_mul_of_nonneg_right hround htotal.le

/-- If the first keyframe is at zero all of them are moved alike, and the first one is held. -/
theorem stretchedKeyframes_eq (h : p.source.offsets.head? = some 0) :
    p.stretchedKeyframes = (p.source.keyframes.take 1).map ({ · with offset := 0 }) ++
      p.source.keyframes.map fun k => { k with offset := p.stretchOffset k.offset } := by
  cases hk : p.source.keyframes with
  | nil => simp [Instruction.offsets, hk] at h
  | cons first rest =>
    -- the held copy is the first keyframe, which stands at zero
    have hfirst : first.offset = 0 := by
      simpa [Instruction.offsets, hk] using h
    simp [stretchedKeyframes, hk, stretchOffset, hfirst]

theorem isStretched_of_delayed (hstretch : p.stretch = true) (hdelay : 0 < p.delay)
    (h : p.source.offsets.head? = some 0) : p.isStretched = true := by
  have hne : p.source.keyframes.isEmpty = false := by
    cases hk : p.source.keyframes with
    | nil => simp [Instruction.offsets, hk] at h
    | cons first rest => rfl
  simp [isStretched, hstretch, hdelay, hne]

end Placement

/-- **Folding a delay keeps the times.**  The delay becomes part of the keyframes: what is built
takes as long as the delay and the duration together, and starts with a held copy of the first
keyframe.  Each keyframe of the source comes next, with its styles and its easing, at its own time
but for the rounding of its offset.  The order of the offsets is kept, and so is the end. -/
theorem stretch_keeps_times {p : Placement ℚ} (hascending : p.source.offsets.Pairwise (· ≤ ·))
    (hrange : ∀ x ∈ p.source.offsets, 0 ≤ x ∧ x ≤ 1) (hfirst : p.source.offsets.head? = some 0)
    (hduration : 0 ≤ p.duration) (hdelay : 0 < p.delay) (hstretch : p.stretch = true) :
    let i := p.toInstruction
    i.delay = 0 ∧ i.totalTime = p.duration + p.delay ∧
      i.keyframes.length = p.source.keyframes.length + 1 ∧
      i.offsets.Pairwise (· ≤ ·) ∧ (∀ x ∈ i.offsets, 0 ≤ x ∧ x ≤ 1) ∧
      i.keyframes.head? = p.source.keyframes.head?.map ({ · with offset := 0 }) ∧
      (∀ n k, p.source.keyframes[n]? = some k → ∃ k', i.keyframes[n + 1]? = some k' ∧
        k'.styles = k.styles ∧ k'.easing = k.easing ∧
          |(i.delay + k'.offset * i.duration) - (p.delay + k.offset * p.duration)| ≤
            5 / 10000 * (p.duration + p.delay)) ∧
      (p.source.offsets.getLast? = some 1 → i.offsets.getLast? = some 1) := by
  intro i
  have hstretched := Placement.isStretched_of_delayed hstretch hdelay hfirst
  have hi : i = { p.source with
      keyframes := p.stretchedKeyframes
      duration := p.duration + p.delay
      delay := 0
      easing := none
      isSubTimeline := true
      isStretched := true
      stretchStart := false } := if_pos hstretched
  have hoffsets : i.offsets = 0 :: p.source.offsets.map p.stretchOffset := by
    rw [hi]
    exact Placement.offsets_stretchedKeyframes hfirst
  -- there is a first keyframe, as there is a first offset
  obtain ⟨first, rest, hk⟩ : ∃ first rest, p.source.keyframes = first :: rest := by
    cases hk : p.source.keyframes with
    | nil => simp [Instruction.offsets, hk] at hfirst
    | cons first rest => exact ⟨first, rest, rfl⟩
  have hkeyframes : i.keyframes = { first with offset := 0 } ::
      p.source.keyframes.map fun k => { k with offset := p.stretchOffset k.offset } := by
    rw [hi]
    show p.stretchedKeyframes = _
    rw [Placement.stretchedKeyframes_eq hfirst, hk]
    rfl
  -- moved offsets stay in range, for both ends do and the order is kept
  have hmoved : ∀ x ∈ p.source.offsets.map p.stretchOffset, 0 ≤ x ∧ x ≤ 1 := by
    intro x hx
    obtain ⟨offset, hoffset, rfl⟩ := List.mem_map.1 hx
    obtain ⟨hlo, hhi⟩ := hrange offset hoffset
    exact ⟨Placement.stretchOffset_nonneg hduration hdelay hlo,
      Placement.stretchOffset_le_one hduration hdelay hhi⟩
  refine ⟨by rw [hi], by rw [hi]; exact add_zero _, ?_, ?_, ?_, ?_, ?_, ?_⟩
  · rw [hkeyframes, List.length_cons, List.length_map]
  · rw [hoffsets]
    exact List.pairwise_cons.2 ⟨fun x hx => (hmoved x hx).1, List.pairwise_map.2
      (hascending.imp fun hab => Placement.stretchOffset_mono hduration hdelay hab)⟩
  · rw [hoffsets]
    exact List.forall_mem_cons.2 ⟨⟨le_rfl, zero_le_one⟩, hmoved⟩
  · rw [hkeyframes, hk]
    rfl
  · intro n k hn
    refine ⟨{ k with offset := p.stretchOffset k.offset }, ?_, rfl, rfl, ?_⟩
    · rw [hkeyframes, List.getElem?_cons_succ, List.getElem?_map, hn]
      rfl
    · have herror := Placement.abs_stretchOffset_sub_le hduration hdelay k.offset
      have hthousandth : (5 / 10000 : ℚ) = 1 / 2000 := by norm_num
      rw [hi, zero_add, hthousandth]
      exact herror
  · intro hlast
    rw [hoffsets, List.getLast?_cons, List.getLast?_map, hlast, Option.map_some,
      Placement.stretchOffset_one hduration hdelay]
    rfl

/-- A third of the way is shown after a delay of half the duration. -/
def thirds : Placement ℚ where
  source := { Instruction.empty ⟨1⟩ 0 with
    keyframes := [⟨0, none, ∅⟩, ⟨1 / 3, some "ease-in", ∅⟩, ⟨1, none, ∅⟩] }
  duration := 100
  delay := 50
  stretch := true

/-- It is at five ninths of the whole, which rounds up, and 1/15 ms late. -/
theorem stretch_keeps_times_thirds :
    let i := thirds.toInstruction
    i.offsets = [0, 333 / 1000, 556 / 1000, 1] ∧ i.totalTime = 150 ∧
      ∀ n k, thirds.source.keyframes[n]? = some k → ∃ k', i.keyframes[n + 1]? = some k' ∧
        k'.styles = k.styles ∧ k'.easing = k.easing ∧
          |(i.delay + k'.offset * i.duration) - (thirds.delay + k.offset * thirds.duration)| ≤
            5 / 10000 * (thirds.duration + thirds.delay) := by
  intro i
  obtain ⟨-, htotal, -, -, -, -, htimes, -⟩ := stretch_keeps_times (p := thirds)
    (by decide +kernel) (by decide +kernel) rfl (by decide +kernel) (by decide +kernel) rfl
  have hoffsets : i.offsets = [0, 333 / 1000, 556 / 1000, 1] := by
    decide +kernel
  have htime : thirds.duration + thirds.delay = 150 := by
    decide +kernel
  exact ⟨hoffsets, htotal.trans htime, htimes⟩

end Choreography
