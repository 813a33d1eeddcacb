/-
Choreography/Proofs/Agreement.lean

The two readers of times agree.

The lenient reader scans a text from its first visible character on; the strict one trims the text
at both ends, cuts it at its first blank, and scans what comes before.  It is the same scan, and a
scan that has come to a unit is not affected by anything behind it (`scan?_append`).  What the
strict reader scans is a beginning of what the lenient one does, so a duration that the former finds
the latter finds as well (`milliseconds_of_prefix`).

Both read numerals in the same way, whatever numbers are, so nothing is asked of them here.

Main result: `milliseconds_eq_duration`.
-/
import Choreography.Proofs.Reading

namespace Choreography

/-! ### Beginnings of a text -/

namespace Text

theorem trimEnd_prefix (cs : List Char) : trimEnd cs <+: cs := List.rdropWhile_prefix isBlank cs

theorem cutAtBlank_prefix (cs : List Char) : (cutAtBlank cs).1 <+: cs := List.takeWhile_prefix _

end Text

variable {τ : Type} [Quantity τ]

namespace TimeText

/-- What comes after the unit does not matter to a scan. -/
theorem scan?_append {cs numeral rest : List Char} {unit : TimeUnit}
    (h : scan? cs = some (numeral, unit, rest)) (more : List Char) :
    scan? (cs ++ more) = some (numeral, unit, rest ++ more) := by
  obtain ⟨negative, digits, letters, hne, hdigits, hletters, hnumeral, rfl⟩ :=
    scan?_eq_some_iff.1 h
  -- the same sign, digits and letters are found, and the text after them is longer
  refine scan?_eq_some_iff.2 ⟨negative, digits, letters, hne, hdigits, hletters, hnumeral, ?_⟩
  rw [List.append_assoc, List.append_assoc]

/-- The lenient reader finds a time at the beginning of a text. -/
theorem milliseconds_of_prefix {s : String} {cs : List Char} {x : τ} (h : time? cs = some x)
    (hcs : cs <+: Text.trimStart s.toList) : (Scalar.text s).milliseconds = x := by
  obtain ⟨more, hmore⟩ := hcs
  rw [time?] at h
  -- the strict reader has found one time and nothing after it
  split at h
  · next numeral unit hscan =>
    have hwhole := scan?_append hscan more
    rw [hmore] at hwhole
    simp only [Scalar.milliseconds, hwhole, h, Option.getD_some]
  · cases h

/-- The duration of an expression is what stands before its first blank. -/
theorem time?_of_timings? {cs : List Char} {t : Timings τ} (h : timings? cs = some t) :
    time? (Text.cutAtBlank cs).1 = some t.duration := by
  obtain ⟨duration, hduration, h⟩ := Option.bind_eq_some_iff.1 h
  refine hduration.trans ?_
  simp only at h
  -- there is a delay or there is none; the duration is read before that is decided
  split at h
  · obtain ⟨easing, -, rfl⟩ := Option.map_eq_some_iff.1 h
    rfl
  · obtain ⟨easing, -, rfl⟩ := Option.map_eq_some_iff.1 h
    rfl

end TimeText

open TimeText in
/-- **What the strict reader accepts, the lenient one reads as the same duration.** -/
theorem milliseconds_eq_duration (s : String)
    (h : .invalidTiming s ∉ (Timings.read (τ := τ) s true).2) (allowNegative : Bool) :
    (Scalar.text s).milliseconds = (Timings.read (τ := τ) s allowNegative).1.duration := by
  -- a text that is not accepted is reported, against the assumption
  cases ht : timings? (τ := τ) (Text.trim s.toList) with
  | none =>
    rw [Timings.read, ht] at h
    exact absurd (List.mem_singleton_self _) h
  | some t =>
    have hfirst : (Text.cutAtBlank (Text.trim s.toList)).1 <+: Text.trimStart s.toList :=
      (Text.cutAtBlank_prefix _).trans (Text.trimEnd_prefix _)
    rw [Timings.read, ht]
    exact milliseconds_of_prefix (time?_of_timings? ht) hfirst

/-- The lenient reader finds the duration between white space and the rest, which it does not
read. -/
theorem milliseconds_eq_duration_padded :
    let s := " 1.5s  -20MS steps(2, jump-none) "
    .invalidTiming s ∉ (Timings.read (τ := ℚ) s true).2 ∧
      (Scalar.text s : Scalar ℚ).milliseconds = 1500 := by
  intro s
  have haccepted : .invalidTiming s ∉ (Timings.read (τ := ℚ) s true).2 := by decide +kernel
  have hduration : (Timings.read (τ := ℚ) s true).1.duration = 1500 := by decide +kernel
  exact ⟨haccepted, (milliseconds_eq_duration s haccepted true).trans hduration⟩

end Choreography
