/-
Choreography/Proofs/Grammar.lean

The grammar of timing expressions.

A time is an optional `-`, digits with at most one point and at least one digit, and a unit; an
easing is a name of letters and dashes, which may be followed by arguments between parentheses.
An expression is a time, maybe another one for the delay, and maybe an easing, with white space
between them.

The phrases of the grammar are well-formed by construction, so all there is to say about them is
how they are written (`chars`) and what they stand for.  No two of them are written alike
(`Grammar.Expression.chars_injective`): where a part ends is seen from the next character
(`Text.append_inj_of_stops`), and a time is told from an easing by what comes after its sign
(`Grammar.Time.chars_append_ne`).
-/
import Mathlib
import Choreography.Timing.Expression
import Choreography.Quantity.Exact

namespace Choreography

/-! ### Where a part of a text ends -/

namespace Text

variable {p : Char → Bool} {xs xs' ys ys' : List Char}

/-- A text does not go on with characters of a kind. -/
def Stops (p : Char → Bool) (cs : List Char) : Prop := ∀ c ∈ cs.head?, p c = false

theorem stops_nil (p : Char → Bool) : Stops p [] := nofun

theorem stops_cons {c : Char} (h : p c = false) (cs : List Char) : Stops p (c :: cs) := by
  intro c' hc
  rwa [← Option.some.inj hc]

/-- What comes after a text may only show where the text is empty. -/
theorem Stops.append (h : Stops p xs) (h' : Stops p ys) : Stops p (xs ++ ys) := by
  cases xs with
  | nil => exact h'
  | cons c xs => exact h

/-- What is left after cutting off a kind of characters does not go on with one. -/
theorem stops_dropWhile (p : Char → Bool) (cs : List Char) : Stops p (cs.dropWhile p) := by
  intro c hc
  have hhead := List.head?_dropWhile_not p cs
  rw [hc] at hhead
  simpa using hhead

theorem takeWhile_eq_nil (h : Stops p ys) : ys.takeWhile p = [] := by
  cases ys with
  | nil => rfl
  | cons c ys => rw [List.takeWhile_cons, h c rfl, if_neg Bool.false_ne_true]

theorem dropWhile_eq_self (h : Stops p ys) : ys.dropWhile p = ys := by
  cases ys with
  | nil => rfl
  | cons c ys => rw [List.dropWhile_cons, h c rfl, if_neg Bool.false_ne_true]

/-- The characters of a kind are cut off up to where the rest begins. -/
theorem takeWhile_append (hxs : ∀ c ∈ xs, p c = true) (hys : Stops p ys) :
    (xs ++ ys).takeWhile p = xs := by
  rw [List.takeWhile_append_of_pos hxs, takeWhile_eq_nil hys, List.append_nil]

theorem dropWhile_append (hxs : ∀ c ∈ xs, p c = true) (hys : Stops p ys) :
    (xs ++ ys).dropWhile p = ys := by
  rw [List.dropWhile_append_of_pos hxs, dropWhile_eq_self hys]

/-- Two texts that go on in different characters are cut at the same place. -/
theorem append_inj_of_stops (hxs : ∀ c ∈ xs, p c = true) (hxs' : ∀ c ∈ xs', p c = true)
    (hys : Stops p ys) (hys' : Stops p ys') (h : xs ++ ys = xs' ++ ys') : xs = xs' ∧ ys = ys' := by
  constructor
  · rw [← takeWhile_append hxs hys, h, takeWhile_append hxs' hys']
  · rw [← dropWhile_append hxs hys, h, dropWhile_append hxs' hys']

section Missing

variable {α : Type} {write : α → List Char}

/-- A part that may be missing stops where it does when it is there, for nothing stops anywhere. -/
theorem stops_elim (h : ∀ x, Stops p (write x)) (part : Option α) :
    Stops p (part.elim [] write) := by
  cases part with
  | none => exact stops_nil p
  | some x => exact h x

/-- A part that may be missing is written in one way if nothing is written only when it is. -/
theorem elim_injective (hne : ∀ x, write x ≠ []) (hwrite : Function.Injective write) :
    Function.Injective fun part : Option α => part.elim [] write := by
  intro part part' h
  cases part with
  | none =>
    cases part' with
    | none => rfl
    | some x => exact absurd h.symm (hne x)
  | some x =>
    cases part' with
    | none => exact absurd h (hne x)
    | some x' => exact congrArg some (hwrite h)

end Missing

end Text

open Text (Stops)

/-! ### Characters -/

/-- White space is no visible character of ASCII. -/
theorem isBlank_eq_false {c : Char} (hlo : 0x21 ≤ c.toNat) (hhi : c.toNat ≤ 0x7E) :
    Text.isBlank c = false := by
  rw [Text.isBlank, List.any_eq_false]
  intro range hrange
  simp only [Text.blankRanges, List.mem_cons, List.not_mem_nil, or_false] at hrange
  simp only [Bool.and_eq_true, decide_eq_true_eq, not_and]
  rcases hrange with rfl | rfl | rfl | rfl | rfl | rfl | rfl | rfl | rfl | rfl <;> simp only <;> omega

/-- Digits are no white space. -/
theorem isBlank_of_isDigit {c : Char} (h : c.isDigit = true) : Text.isBlank c = false := by
  obtain ⟨hlo, hhi⟩ := Char.isDigit_iff_toNat.1 h
  have hzero : '0'.toNat = 48 := rfl
  have hnine : '9'.toNat = 57 := rfl
  exact isBlank_eq_false (by omega) (by omega)

theorem isUpper_iff_toNat {c : Char} : c.isUpper = true ↔ 65 ≤ c.toNat ∧ c.toNat ≤ 90 := by
  simp [Char.isUpper, UInt32.le_iff_toNat_le, ← Char.toNat_val]

theorem isLower_iff_toNat {c : Char} : c.isLower = true ↔ 97 ≤ c.toNat ∧ c.toNat ≤ 122 := by
  simp [Char.isLower, UInt32.le_iff_toNat_le, ← Char.toNat_val]

theorem isAlpha_of_isDigit {c : Char} (h : c.isDigit = true) : c.isAlpha = false := by
  obtain ⟨-, hle⟩ := Char.isDigit_iff_toNat.1 h
  have hnine : '9'.toNat = 57 := rfl
  rw [Char.isAlpha, Bool.or_eq_false_iff, ← Bool.not_eq_true, ← Bool.not_eq_true, isUpper_iff_toNat,
    isLower_iff_toNat]
  omega

/-- A letter is written small or large. -/
theorem eq_or_eq_of_toLower {c lower : Char} (h : c.toLower = lower) :
    c = lower ∨ c = Char.ofNat (lower.toNat - 32) := by
  cases hc : c.isUpper with
  | true =>
    right
    obtain ⟨-, hle⟩ := isUpper_iff_toNat.1 hc
    -- a large letter moved by 32 places is a character still
    have hvalid : (c.toNat + 32).isValidChar := .inl (by omega)
    have hlower : lower.toNat = c.toNat + 32 := by
      rw [← h, Char.toLower_eq_of_isUpper hc, Char.toNat_ofNat, if_pos hvalid]
    rw [hlower, Nat.add_sub_cancel, Char.ofNat_toNat]
  | false =>
    left
    rw [← h, Char.toLower_eq_of_not_isUpper (by simp [hc])]

/-! ### Phrases -/

namespace TimeUnit

/-- The name of a unit in small letters. -/
def name : TimeUnit → List Char
  | milliseconds => ['m', 's']
  | seconds => ['s']

/-- How many milliseconds a unit has. -/
def size : TimeUnit → ℚ
  | milliseconds => 1
  | seconds => 1000

end TimeUnit

namespace Grammar

/-- The sign of a negative number. -/
def sign (negative : Bool) : List Char := if negative then ['-'] else []

/-- A sign is a dash. -/
theorem eq_of_mem_sign {negative : Bool} {c : Char} (h : c ∈ sign negative) : c = '-' := by
  unfold sign at h
  split at h
  · exact List.mem_singleton.1 h
  · cases h

/-- A time. -/
@[ext] structure Time where
  negative : Bool
  /-- The digits before the point. -/
  whole : List Char
  /-- The digits after the point, if there is one. -/
  fraction : Option (List Char)
  unit : TimeUnit
  /-- How the unit is written. -/
  letters : List Char
  whole_isDigit : ∀ c ∈ whole, c.isDigit = true
  fraction_isDigit : ∀ c ∈ fraction.getD [], c.isDigit = true
  digits_ne_nil : whole ++ fraction.getD [] ≠ []
  map_letters : letters.map Char.toLower = unit.name

/-- An easing. -/
@[ext] structure Easing where
  name : List Char
  /-- What stands between the parentheses, if there are any. -/
  arguments : Option (List Char)
  name_ne_nil : name ≠ []
  name_isAlpha : ∀ c ∈ name, c.isAlpha = true ∨ c = '-'
  arguments_ne_nil : arguments ≠ some []

/-- White space between two parts. -/
@[ext] structure Blanks where
  chars : List Char
  ne_nil : chars ≠ []
  isBlank : ∀ c ∈ chars, Text.isBlank c = true

/-- A timing expression. -/
@[ext] structure Expression where
  duration : Time
  delay : Option (Blanks × Time)
  easing : Option (Blanks × Easing)

/-! ### Times -/

namespace Time

variable (t : Time)

/-- The digits and the point. -/
def numeral : List Char := t.whole ++ t.fraction.elim [] ('.' :: ·)

/-- How a time is written. -/
def chars : List Char := sign t.negative ++ (t.numeral ++ t.letters)

/-- The number without its sign. -/
def size : ℚ :=
  Nat.ofDigitChars 10 t.whole 0 +
    Nat.ofDigitChars 10 (t.fraction.getD []) 0 / 10 ^ (t.fraction.getD []).length

/-- How many milliseconds a time is. -/
def value : ℚ := (if t.negative then -t.size else t.size) * t.unit.size

theorem mem_numeral {c : Char} (h : c ∈ t.numeral) : c.isDigit = true ∨ c = '.' := by
  rcases List.mem_append.1 h with hc | hc
  · exact .inl (t.whole_isDigit c hc)
  · cases hf : t.fraction with
    | none =>
      rw [hf] at hc
      cases hc
    | some digits =>
      have hdigits := t.fraction_isDigit
      rw [hf] at hc hdigits
      rcases List.mem_cons.1 hc with rfl | hc
      · exact .inr rfl
      · exact .inl (hdigits c hc)

/-- The letters of a unit are those of its name, small or large. -/
theorem mem_letters {c : Char} (h : c ∈ t.letters) : c ∈ ['m', 'M', 's', 'S'] := by
  have hlower : c.toLower ∈ t.unit.name := t.map_letters ▸ List.mem_map_of_mem h
  -- seconds have an `s` only, but both letters are tried for both units
  have hname : c.toLower = 'm' ∨ c.toLower = 's' := by
    cases hu : t.unit with
    | milliseconds => simpa [TimeUnit.name, hu] using hlower
    | seconds =>
      right
      simpa [TimeUnit.name, hu] using hlower
  rcases hname with hm | hs
  · have hcase : c = 'm' ∨ c = 'M' := eq_or_eq_of_toLower hm
    rcases hcase with rfl | rfl <;> decide
  · have hcase : c = 's' ∨ c = 'S' := eq_or_eq_of_toLower hs
    rcases hcase with rfl | rfl <;> decide

/-- A numeral begins with a digit or a point. -/
theorem exists_numeral_eq_cons :
    ∃ c cs, t.numeral = c :: cs ∧ (c.isDigit = true ∨ c = '.') := by
  cases hn : t.numeral with
  | nil =>
    obtain ⟨hwhole, hfraction⟩ := List.append_eq_nil_iff.1 hn
    -- a numeral of which nothing is written would have no digits
    refine absurd ?_ t.digits_ne_nil
    cases hf : t.fraction with
    | none => rw [hwhole, Option.getD_none, List.append_nil]
    | some digits =>
      rw [hf] at hfraction
      cases hfraction
  | cons c cs => exact ⟨c, cs, rfl, t.mem_numeral (hn ▸ List.mem_cons_self)⟩

/-- No part of a time is blank. -/
theorem isBlank_of_mem_chars {c : Char} (h : c ∈ t.chars) : Text.isBlank c = false := by
  rcases List.mem_append.1 h with hc | hc
  · rw [eq_of_mem_sign hc]
    decide
  · rcases List.mem_append.1 hc with hc | hc
    · rcases t.mem_numeral hc with hdigit | rfl
      · exact isBlank_of_isDigit hdigit
      · decide
    · have hletters := t.mem_letters hc
      simp only [List.mem_cons, List.not_mem_nil, or_false] at hletters
      rcases hletters with rfl | rfl | rfl | rfl <;> decide

theorem chars_ne_nil : t.chars ≠ [] := by
  obtain ⟨c, cs, hn, -⟩ := t.exists_numeral_eq_cons
  rw [chars, hn]
  simp

/-- A numeral goes on with digits and points. -/
def isNumeralChar (c : Char) : Bool := c.isDigit || c = '.'

theorem isNumeralChar_of_mem {c : Char} (h : c ∈ t.numeral) : isNumeralChar c = true := by
  simpa [isNumeralChar] using t.mem_numeral h

/-- The letters of the unit end a numeral. -/
theorem stops_letters : Stops isNumeralChar t.letters := by
  intro c hc
  have hletters := t.mem_letters (List.mem_of_mem_head? hc)
  simp only [List.mem_cons, List.not_mem_nil, or_false] at hletters
  rcases hletters with rfl | rfl | rfl | rfl <;> decide

/-- So does a point, for anything that a point is not part of. -/
theorem stops_fraction (t : Time) {p : Char → Bool} (hpoint : p '.' = false) :
    Stops p (t.fraction.elim [] ('.' :: ·)) :=
  Text.stops_elim (fun digits => Text.stops_cons hpoint digits) t.fraction

/-- Digits and point are read off a numeral. -/
theorem numeral_inj {t t' : Time} (h : t.numeral = t'.numeral) :
    t.whole = t'.whole ∧ t.fraction = t'.fraction := by
  have hpoint : Char.isDigit '.' = false := by decide
  obtain ⟨hwhole, hfraction⟩ := Text.append_inj_of_stops t.whole_isDigit t'.whole_isDigit
    (t.stops_fraction hpoint) (t'.stops_fraction hpoint) h
  exact ⟨hwhole, Text.elim_injective (List.cons_ne_nil '.') List.cons_injective hfraction⟩

theorem unit_inj {t t' : Time} (h : t.letters = t'.letters) : t.unit = t'.unit := by
  have hname : t.unit.name = t'.unit.name := by
    rw [← t.map_letters, h, t'.map_letters]
  cases hu : t.unit <;> cases hu' : t'.unit
  · rfl
  · rw [hu, hu'] at hname
    exact absurd hname (by decide)
  · rw [hu, hu'] at hname
    exact absurd hname (by decide)
  · rfl

/-- A time is written in one way. -/
theorem chars_injective : Function.Injective chars := by
  intro t t' h
  -- the sign is seen from the first character, for no numeral begins with a dash
  have hsign : ∀ t : Time, t.chars.head? = some '-' ↔ t.negative = true := by
    intro t
    obtain ⟨c, cs, hn, hc⟩ := t.exists_numeral_eq_cons
    rw [chars, hn]
    cases t.negative with
    | true => simp [sign]
    | false =>
      simp only [sign, Bool.false_eq_true, if_false, List.nil_append, List.cons_append, List.head?_cons,
        Option.some.injEq, iff_false]
      rintro rfl
      rcases hc with hc | hc <;> exact absurd hc (by decide)
  have hnegative : t.negative = t'.negative := by
    rw [Bool.eq_iff_iff, ← hsign, ← hsign, h]
  rw [chars, chars, hnegative] at h
  -- the numeral ends where the letters begin
  obtain ⟨hnumeral, hletters⟩ := Text.append_inj_of_stops
    (fun c => t.isNumeralChar_of_mem) (fun c => t'.isNumeralChar_of_mem)
    t.stops_letters t'.stops_letters (List.append_cancel_left h)
  obtain ⟨hwhole, hfraction⟩ := numeral_inj hnumeral
  exact Time.ext hnegative hwhole hfraction (unit_inj hletters) hletters

end Time

/-! ### Easings -/

namespace Easing

variable (e : Easing)

/-- The name of an easing goes on with letters and dashes. -/
def isNameChar (c : Char) : Bool := c.isAlpha || c = '-'

/-- The arguments with their parentheses. -/
def parentheses : List Char := e.arguments.elim [] fun inner => '(' :: (inner ++ [')'])

/-- How an easing is written. -/
def chars : List Char := e.name ++ e.parentheses

theorem isNameChar_of_mem {c : Char} (h : c ∈ e.name) : isNameChar c = true := by
  simpa [isNameChar] using e.name_isAlpha c h

/-- The arguments, if any, begin with a parenthesis. -/
theorem stops_parentheses {p : Char → Bool} (hopen : p '(' = false) : Stops p e.parentheses :=
  Text.stops_elim (fun _ => Text.stops_cons hopen _) e.arguments

/-- An easing is written in one way. -/
theorem chars_injective : Function.Injective chars := by
  intro e e' h
  have hopen : isNameChar '(' = false := by decide
  obtain ⟨hname, hparentheses⟩ := Text.append_inj_of_stops
    (fun c => e.isNameChar_of_mem) (fun c => e'.isNameChar_of_mem)
    (e.stops_parentheses hopen) (e'.stops_parentheses hopen) h
  -- what stands between the parentheses is what is written without them
  have henclose : Function.Injective fun inner => '(' :: (inner ++ [')']) :=
    List.cons_injective.comp (List.append_left_injective [')'])
  exact Easing.ext hname (Text.elim_injective (fun _ => List.cons_ne_nil _ _) henclose hparentheses)

end Easing

/-- No easing begins like a time: after a sign there is a digit or a point in a time. -/
theorem Time.chars_append_ne (t : Time) (rest : List Char) (e : Easing) :
    t.chars ++ rest ≠ e.chars := by
  intro h
  obtain ⟨c, cs, hn, hc⟩ := t.exists_numeral_eq_cons
  have hname : Easing.isNameChar c = false := by
    rcases hc with hc | rfl
    · have hdash : c ≠ '-' := by
        rintro rfl
        exact absurd hc (by decide)
      simp [Easing.isNameChar, isAlpha_of_isDigit hc, hdash]
    · decide
  have hsign : ∀ d ∈ sign t.negative, Easing.isNameChar d = true := by
    intro d hd
    rw [eq_of_mem_sign hd]
    decide
  -- as an easing, the text would have its name cut off after the sign at the latest
  have hparentheses : e.chars.dropWhile Easing.isNameChar = e.parentheses :=
    Text.dropWhile_append (fun c => e.isNameChar_of_mem) (e.stops_parentheses (by decide))
  rw [← h, chars, List.append_assoc, hn, List.cons_append, List.cons_append,
    Text.dropWhile_append hsign (Text.stops_cons hname _)] at hparentheses
  -- so the numeral would begin where the parentheses do
  have hstops : Stops isNumeralChar e.parentheses := e.stops_parentheses (by decide)
  rw [← hparentheses] at hstops
  have hnumeral : isNumeralChar c = true :=
    t.isNumeralChar_of_mem (hn ▸ List.mem_cons_self)
  rw [hstops c rfl] at hnumeral
  cases hnumeral

/-! ### Expressions -/

/-- A part that may be missing, with the white space before it. -/
def optional {α : Type} (chars : α → List Char) (part : Option (Blanks × α)) : List Char :=
  part.elim [] fun x => x.1.chars ++ chars x.2

/-- A time does not begin with a blank. -/
theorem Time.stops_chars (t : Time) (cs : List Char) : Stops Text.isBlank (t.chars ++ cs) := by
  intro c hc
  rw [List.head?_append_of_ne_nil _ t.chars_ne_nil] at hc
  exact t.isBlank_of_mem_chars (List.mem_of_mem_head? hc)

theorem Easing.isBlank_of_mem_name (e : Easing) {c : Char} (h : c ∈ e.name) :
    Text.isBlank c = false := by
  rcases e.name_isAlpha c h with halpha | rfl
  · rw [Char.isAlpha, Bool.or_eq_true, isUpper_iff_toNat, isLower_iff_toNat] at halpha
    exact isBlank_eq_false (by omega) (by omega)
  · decide

theorem Easing.stops_chars (e : Easing) : Stops Text.isBlank e.chars := by
  unfold chars
  cases hn : e.name with
  | nil => exact absurd hn e.name_ne_nil
  | cons c cs => exact Text.stops_cons (e.isBlank_of_mem_name (hn ▸ List.mem_cons_self)) _

/-- No character of a time is blank. -/
theorem Time.not_isBlank_of_mem (t : Time) : ∀ c ∈ t.chars, (!Text.isBlank c) = true := by
  intro c hc
  rw [t.isBlank_of_mem_chars hc]
  rfl

section Optional

variable {α : Type} {chars : α → List Char}

@[simp] theorem optional_none : optional chars none = [] := rfl

@[simp] theorem optional_some (x : Blanks × α) :
    optional chars (some x) = x.1.chars ++ chars x.2 := rfl

/-- What comes before a part ends there. -/
theorem stops_optional (part : Option (Blanks × α)) :
    Stops (!Text.isBlank ·) (optional chars part) := by
  refine Text.stops_elim (fun x => ?_) part
  cases hbs : x.1.chars with
  | nil => exact absurd hbs x.1.ne_nil
  | cons c cs =>
    refine Text.stops_cons ?_ _
    rw [x.1.isBlank c (hbs ▸ List.mem_cons_self)]
    rfl

theorem Blanks.append_ne_nil (bs : Blanks) (cs : List Char) : bs.chars ++ cs ≠ [] :=
  fun h => bs.ne_nil (List.append_eq_nil_iff.1 h).1

/-- White space is cut off in one way. -/
theorem Blanks.append_inj {bs bs' : Blanks} {cs cs' : List Char} (hcs : Stops Text.isBlank cs)
    (hcs' : Stops Text.isBlank cs') (h : bs.chars ++ cs = bs'.chars ++ cs') :
    bs = bs' ∧ cs = cs' := by
  obtain ⟨hbs, hrest⟩ := Text.append_inj_of_stops bs.isBlank bs'.isBlank hcs hcs' h
  exact ⟨Blanks.ext hbs, hrest⟩

/-- A part that may be missing is written in one way if the part is. -/
theorem optional_injective (hstops : ∀ x, Stops Text.isBlank (chars x))
    (hchars : Function.Injective chars) : Function.Injective (optional chars) := by
  refine Text.elim_injective (fun x => x.1.append_ne_nil _) fun x x' h => ?_
  obtain ⟨hblanks, hpart⟩ := Blanks.append_inj (hstops x.2) (hstops x'.2) h
  exact Prod.ext hblanks (hchars hpart)

end Optional

namespace Expression

variable (e : Expression)

/-- What comes after the duration. -/
def rest : List Char := optional Time.chars e.delay ++ optional Easing.chars e.easing

/-- How an expression is written. -/
def chars : List Char := e.duration.chars ++ e.rest

/-- What an expression stands for. -/
def timings : Timings ℚ where
  duration := e.duration.value
  delay := e.delay.elim 0 fun x => x.2.value
  easing := e.easing.map fun x => String.ofList x.2.chars

/-- After the duration comes nothing or a blank. -/
theorem stops_rest : Stops (!Text.isBlank ·) e.rest :=
  (stops_optional _).append (stops_optional _)

/-- What follows a blank is a time or an easing, and not both. -/
theorem delay_ne_easing (bs : Blanks) (t : Time) (cs : List Char)
    (easing : Option (Blanks × Easing)) :
    bs.chars ++ (t.chars ++ cs) ≠ optional Easing.chars easing := by
  intro h
  cases easing with
  | none => exact bs.append_ne_nil _ h
  | some x =>
    obtain ⟨-, heasing⟩ := Blanks.append_inj (t.stops_chars cs) x.2.stops_chars h
    exact t.chars_append_ne cs x.2 heasing

/-- Delay and easing are read off what comes after the duration. -/
theorem rest_inj {e e' : Expression} (h : e.rest = e'.rest) :
    e.delay = e'.delay ∧ e.easing = e'.easing := by
  have heasings := optional_injective Easing.stops_chars Easing.chars_injective
  unfold rest at h
  -- with or without a delay; if only one of the two had one, it would be the other's easing
  cases hd : e.delay with
  | none =>
    rw [hd] at h
    cases hd' : e'.delay with
    | none =>
      rw [hd'] at h
      exact ⟨rfl, heasings h⟩
    | some x =>
      rw [hd', optional_some, List.append_assoc] at h
      exact absurd h.symm (delay_ne_easing x.1 x.2 _ e.easing)
  | some x =>
    rw [hd, optional_some, List.append_assoc] at h
    cases hd' : e'.delay with
    | none =>
      rw [hd'] at h
      exact absurd h (delay_ne_easing x.1 x.2 _ e'.easing)
    | some x' =>
      rw [hd', optional_some, List.append_assoc] at h
      obtain ⟨hblanks, hrest⟩ := Blanks.append_inj (x.2.stops_chars _) (x'.2.stops_chars _) h
      -- both delays end before the next blank
      obtain ⟨htime, heasing⟩ := Text.append_inj_of_stops x.2.not_isBlank_of_mem
        x'.2.not_isBlank_of_mem (stops_optional e.easing) (stops_optional e'.easing) hrest
      exact ⟨congrArg some (Prod.ext hblanks (Time.chars_injective htime)), heasings heasing⟩

/-- **The grammar is unambiguous.** -/
theorem chars_injective : Function.Injective chars := by
  intro e e' h
  obtain ⟨hduration, hrest⟩ := Text.append_inj_of_stops e.duration.not_isBlank_of_mem
    e'.duration.not_isBlank_of_mem e.stops_rest e'.stops_rest h
  obtain ⟨hdelay, heasing⟩ := rest_inj hrest
  exact Expression.ext (Time.chars_injective hduration) hdelay heasing

end Expression

end Grammar

end Choreography
