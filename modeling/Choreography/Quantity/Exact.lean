/-
Choreography/Quantity/Exact.lean

Exact rationals as a number type.  All of them are finite and comparable, and a
numeral stands for precisely the number it writes.

Put into a text, a rational is laid out as a double is: positionally, with as many
places as it needs.  Every double has such a decimal.  The rationals that have none,
like a third, are not the value of any double; they are written as a fraction.
-/
import Mathlib
import Choreography.Quantity

namespace Choreography

namespace Exact

/-- The nearest whole number; a half goes away from zero. -/
def round (a : ℚ) : ℚ :=
  if a < 0 then -(⌊-a + 1 / 2⌋ : ℚ) else (⌊a + 1 / 2⌋ : ℚ)

/-- The value of a numeral. -/
def ofDecimal (d : Decimal) : ℚ :=
  let size : ℚ := d.coefficient * 10 ^ d.exponent.toNat / 10 ^ (-d.exponent).toNat
  if d.negative then -size else size

/-- The fewest decimal places a number can be written with, if it can be: its
denominator is then a product of twos and fives, and the exponents of both are at
most the binary logarithm of it. -/
def places? (a : ℚ) : Option Nat :=
  (List.range (Nat.log2 a.den + 1)).find? fun places => a.den ∣ 10 ^ places

/-- The numeral with the fewest places that writes a number. -/
def decimal? (a : ℚ) : Option Decimal :=
  (places? a).map fun places : Nat =>
    ⟨a < 0, a.num.natAbs * 10 ^ places / a.den, -(places : Int)⟩

/-- Without exponent and without an empty fraction. -/
def text (a : ℚ) : String :=
  match decimal? a with
  | some d => String.ofList d.plain
  | none => toString a

end Exact

instance : Quantity ℚ where
  decLt := inferInstance
  decLe := inferInstance
  isFinite _ := true
  round := Exact.round
  sortsBefore a b := a ≤ b
  ofDecimal := Exact.ofDecimal
  text := Exact.text

namespace Exact

/-- A denominator that divides a power of ten already divides a power whose exponent
is its binary logarithm. -/
theorem dvd_pow_log2 {n : Nat} (hn : n ≠ 0) {k : Nat} (h : n ∣ 10 ^ k) :
    n ∣ 10 ^ Nat.log2 n := by
  obtain ⟨twos, fives, htwos, hfives, hprod⟩ :=
    Nat.dvd_mul.mp (show n ∣ 2 ^ k * 5 ^ k by rwa [← Nat.mul_pow])
  obtain ⟨i, -, rfl⟩ := (Nat.dvd_prime_pow Nat.prime_two).mp htwos
  obtain ⟨j, -, rfl⟩ := (Nat.dvd_prime_pow Nat.prime_five).mp hfives
  -- neither factor is above `n`, and a five counts for more than a two
  have hi : i ≤ Nat.log2 n := (Nat.le_log2 hn).mpr
    (Nat.le_of_dvd (Nat.pos_of_ne_zero hn) (hprod ▸ Nat.dvd_mul_right _ _))
  have hj : j ≤ Nat.log2 n := (Nat.le_log2 hn).mpr
    ((Nat.pow_le_pow_left (by decide : 2 ≤ 5) j).trans
      (Nat.le_of_dvd (Nat.pos_of_ne_zero hn) (hprod ▸ Nat.dvd_mul_left _ _)))
  calc n = 2 ^ i * 5 ^ j := hprod.symm
    _ ∣ 2 ^ Nat.log2 n * 5 ^ Nat.log2 n :=
      Nat.mul_dvd_mul (Nat.pow_dvd_pow 2 hi) (Nat.pow_dvd_pow 5 hj)
    _ = 10 ^ Nat.log2 n := (Nat.mul_pow 2 5 _).symm

/-- The search for the number of places fails only where no number of places will do. -/
theorem isSome_places?_iff (a : ℚ) : (places? a).isSome ↔ ∃ k, a.den ∣ 10 ^ k := by
  simp only [places?, List.find?_isSome, List.mem_range, decide_eq_true_eq]
  constructor
  · rintro ⟨k, -, h⟩
    exact ⟨k, h⟩
  · rintro ⟨k, h⟩
    exact ⟨_, Nat.lt_succ_self _, dvd_pow_log2 a.den_nz h⟩

/-- The numeral of a number has the number as its value. -/
theorem ofDecimal_of_decimal? {a : ℚ} {d : Decimal} (h : decimal? a = some d) :
    ofDecimal d = a := by
  obtain ⟨places, hplaces, rfl⟩ := Option.map_eq_some_iff.mp h
  have hdvd : a.den ∣ 10 ^ places := by simpa using List.find?_some hplaces
  have hden : (a.den : ℚ) ≠ 0 := by exact_mod_cast a.den_nz
  -- the division in the coefficient leaves no remainder
  have hsize : ((a.num.natAbs * 10 ^ places / a.den : Nat) : ℚ) / 10 ^ places = |a| := by
    rw [Nat.cast_div (hdvd.mul_left _) hden, Nat.cast_mul, Nat.cast_pow, Nat.cast_ofNat,
      div_right_comm, mul_div_cancel_right₀ _ (by positivity), Nat.cast_natAbs, Int.cast_abs]
    conv_rhs => rw [← Rat.num_div_den a, abs_div, Nat.abs_cast]
  simp only [ofDecimal, neg_neg, Int.toNat_natCast, Int.toNat_neg_natCast, pow_zero, mul_one,
    hsize, decide_eq_true_eq]
  split
  case isTrue hneg => rw [abs_of_neg hneg, neg_neg]
  case isFalse hneg => exact abs_of_nonneg (not_lt.mp hneg)

/-- A number with a finite decimal, as every double is, is written as a numeral that has
the number as its value. -/
theorem text_eq_plain {a : ℚ} {k : Nat} (h : a.den ∣ 10 ^ k) :
    ∃ d, ofDecimal d = a ∧ text a = String.ofList d.plain := by
  obtain ⟨places, hplaces⟩ := Option.isSome_iff_exists.mp ((isSome_places?_iff a).mpr ⟨k, h⟩)
  obtain ⟨d, hd⟩ : ∃ d, decimal? a = some d := ⟨_, by rw [decimal?, hplaces, Option.map_some]⟩
  exact ⟨d, ofDecimal_of_decimal? hd, by rw [text, hd]⟩

example : Quantity.text (-5 / 2 : ℚ) = "-2.5" := by
  decide +kernel

end Exact

end Choreography
