/-
Choreography/Proofs/Reading.lean

The reader of timing expressions accepts its grammar.

Each part of the reader is complete and sound for a part of the grammar: it reads whatever is
written as the grammar says, and nothing else.  Complete statements say what is read as well; as
the grammar is unambiguous, sound ones need only say that there is something written.

The reader tries two parts at one place only, the one after the duration, and there the order does
not matter, as an easing is never taken for a time (`time?_cutAtBlank_easing`).

Main result: `reads_iff_expression`.
-/
import Choreography.Proofs.Grammar

namespace Choreography

open Grammar
open Text (Stops)

/-! ### Numerals -/

/-- A character is read as a digit if it is one. -/
theorem digit?_eq_some_iff {c : Char} {d : Nat} :
    Decimal.digit? c = some d ↔ c.isDigit = true ∧ d = c.toNat - '0'.toNat := by
  have hdigit : ('0' ≤ c ∧ c ≤ '9') ↔ c.isDigit = true := Char.isDigit_iff_toNat.symm
  rw [Decimal.digit?]
  split
  · next h => rw [Option.some.injEq, iff_true_intro (hdigit.1 h), true_and, eq_comm]
  · next h => simp only [reduceCtorEq, hdigit.not.1 h, false_and, Bool.false_eq_true]

theorem isDigit_eq (c : Char) : Decimal.isDigit c = c.isDigit := by
  rw [Bool.eq_iff_iff, Decimal.isDigit, Option.isSome_iff_exists]
  simp only [digit?_eq_some_iff, exists_and_left, exists_eq, and_true]

/-- Digits are read as what they are to base ten. -/
theorem digits?_eq_some_iff {acc n : Nat} {cs : List Char} :
    Decimal.digits? acc cs = some n ↔
      (∀ c ∈ cs, c.isDigit = true) ∧ n = Nat.ofDigitChars 10 cs acc := by
  -- on the digits; those that were read are in the accumulator
  induction cs generalizing acc with
  | nil =>
    rw [Decimal.digits?, Option.some.injEq, eq_comm]
    exact ⟨fun h => ⟨nofun, h⟩, And.right⟩
  | cons c cs ih =>
    rw [Decimal.digits?, List.forall_mem_cons, Nat.ofDigitChars_cons, Nat.mul_comm 10 acc]
    cases hd : Decimal.digit? c with
    | none =>
      have hc : ¬c.isDigit = true := fun hc => by
        have hsome := digit?_eq_some_iff.2 ⟨hc, rfl⟩
        rw [hd] at hsome
        cases hsome
      simp [hc]
    | some d =>
      obtain ⟨hc, rfl⟩ := digit?_eq_some_iff.1 hd
      simp only [hc, true_and]
      exact ih

/-- A numeral is read as its digits, scaled by those after the point. -/
theorem unsigned?_numeral (t : Time) :
    Decimal.unsigned? t.numeral =
      some (Nat.ofDigitChars 10 (t.whole ++ t.fraction.getD []) 0,
        -((t.fraction.getD []).length : Int)) := by
  have hwhole : ∀ c ∈ t.whole, (c != '.') = true := by
    intro c hc
    rw [bne_iff_ne]
    rintro rfl
    exact absurd (t.whole_isDigit '.' hc) (by decide)
  -- the digits before the point end at the point, or with the text
  have hstops : Stops (· != '.') (t.fraction.elim [] ('.' :: ·)) := t.stops_fraction rfl
  have hdrop : (t.fraction.elim [] ('.' :: ·)).drop 1 = t.fraction.getD [] := by
    cases t.fraction <;> rfl
  have hdigits : Decimal.digits? 0 (t.whole ++ t.fraction.getD []) =
      some (Nat.ofDigitChars 10 (t.whole ++ t.fraction.getD []) 0) :=
    digits?_eq_some_iff.2
      ⟨List.forall_mem_append.2 ⟨t.whole_isDigit, t.fraction_isDigit⟩, rfl⟩
  have hempty : (t.whole.isEmpty && (t.fraction.getD []).isEmpty) = false := by
    rw [← Bool.not_eq_true, Bool.and_eq_true, List.isEmpty_iff, List.isEmpty_iff,
      ← List.append_eq_nil_iff]
    exact t.digits_ne_nil
  rw [Decimal.unsigned?, Time.numeral, Text.takeWhile_append hwhole hstops,
    Text.dropWhile_append hwhole hstops, hdrop]
  simp only [hempty, hdigits, Bool.false_eq_true, if_false, Option.map_some]

/-- What is read as a numeral makes a time with any unit. -/
theorem exists_time {cs letters : List Char} {unit : TimeUnit} {n : Nat × Int} (negative : Bool)
    (hcs : Decimal.unsigned? cs = some n)
    (hletters : letters.map Char.toLower = unit.name) :
    ∃ t : Time, t.chars = sign negative ++ (cs ++ letters) := by
  unfold Decimal.unsigned? at hcs
  simp only at hcs
  split at hcs
  · cases hcs
  next hempty =>
  obtain ⟨n, hn, -⟩ := Option.map_eq_some_iff.1 hcs
  obtain ⟨hdigits, -⟩ := digits?_eq_some_iff.1 hn
  obtain ⟨hwhole, hfraction⟩ := List.forall_mem_append.1 hdigits
  rw [Bool.and_eq_true, List.isEmpty_iff, List.isEmpty_iff, ← List.append_eq_nil_iff] at hempty
  have hsplit := List.takeWhile_append_dropWhile (p := (· != '.')) (l := cs)
  -- with and without a point
  cases hpoint : cs.dropWhile (· != '.') with
  | nil =>
    rw [hpoint] at hsplit hempty hfraction
    refine ⟨⟨negative, cs.takeWhile (· != '.'), none, unit, letters, hwhole, hfraction, hempty,
      hletters⟩, ?_⟩
    conv_rhs => rw [← hsplit]
    rfl
  | cons c fraction =>
    have hc : c = '.' := by
      have hstops := Text.stops_dropWhile (· != '.') cs
      rw [hpoint] at hstops
      simpa using hstops c rfl
    rw [hpoint] at hsplit hempty hfraction
    refine ⟨⟨negative, cs.takeWhile (· != '.'), some fraction, unit, letters, hwhole, hfraction,
      hempty, hletters⟩, ?_⟩
    conv_rhs => rw [← hsplit, hc]
    rfl

/-- The sign of a text, if it begins with one. -/
theorem exists_eq_sign_append (cs : List Char) :
    ∃ negative body, cs = sign negative ++ body ∧ (negative = false → Stops (· == '-') body) := by
  rcases cs with - | ⟨c, cs⟩
  · exact ⟨false, [], rfl, fun _ => Text.stops_nil _⟩
  · by_cases hc : c = '-'
    · exact ⟨true, cs, by rw [hc]; rfl, nofun⟩
    · have hfirst : (c == '-') = false := beq_false_of_ne hc
      exact ⟨false, c :: cs, rfl, fun _ => Text.stops_cons (p := (· == '-')) hfirst cs⟩

theorem ofChars?_sign_append {negative : Bool} {cs : List Char}
    (hcs : negative = false → Stops (· == '-') cs) :
    Decimal.ofChars? (sign negative ++ cs) =
      (Decimal.unsigned? cs).map fun (n, e) => ⟨negative, n, e⟩ := by
  cases negative with
  | true => rfl
  | false =>
    show Decimal.ofChars? cs = _
    unfold Decimal.ofChars?
    split
    · next rest => exact absurd (hcs rfl '-' rfl) (by decide)
    · rfl

/-- The digits after the point come to what they are, divided by ten for each of them. -/
theorem ofDecimal_numeral (t : Time) :
    Exact.ofDecimal ⟨t.negative, Nat.ofDigitChars 10 (t.whole ++ t.fraction.getD []) 0,
      -((t.fraction.getD []).length : Int)⟩ = if t.negative then -t.size else t.size := by
  have hsize : ((Nat.ofDigitChars 10 (t.whole ++ t.fraction.getD []) 0 : Nat) : ℚ) /
      10 ^ (t.fraction.getD []).length = t.size := by
    rw [Nat.ofDigitChars_append, Nat.ofDigitChars_eq_ofDigitChars_zero, Time.size]
    push_cast
    field_simp
  rw [Exact.ofDecimal]
  simp only [Int.toNat_neg_natCast, neg_neg, Int.toNat_natCast, pow_zero, mul_one, hsize]

/-- No sign stands among digits and points. -/
theorem stops_of_isNumeralChar {cs : List Char} (hcs : ∀ c ∈ cs, Time.isNumeralChar c = true) :
    Stops (· == '-') cs := by
  intro c hc
  rw [beq_eq_false_iff_ne]
  rintro rfl
  exact absurd (hcs '-' (List.mem_of_mem_head? hc)) (by decide)

/-! ### White space -/

namespace Text

theorem Stops.of_append {p : Char → Bool} {xs ys : List Char} (h : Stops p (xs ++ ys)) :
    Stops p xs := by
  cases xs with
  | nil => exact stops_nil p
  | cons c xs => exact h

/-- What is left of a text ends as the text does. -/
theorem Stops.reverse_dropWhile {p : Char → Bool} {cs : List Char} (h : Stops p cs.reverse)
    (q : Char → Bool) : Stops p (cs.dropWhile q).reverse := by
  rw [← List.takeWhile_append_dropWhile (p := q) (l := cs), List.reverse_append] at h
  exact h.of_append

theorem stops_reverse_trim (cs : List Char) : Stops isBlank (trim cs).reverse := by
  rw [trim, trimEnd, List.reverse_reverse]
  exact stops_dropWhile isBlank _

theorem trimStart_blanks_append (bs : Blanks) {cs : List Char} (hcs : Stops isBlank cs) :
    trimStart (bs.chars ++ cs) = cs := dropWhile_append bs.isBlank hcs

theorem cutAtBlank_append {xs ys : List Char} (hxs : ∀ c ∈ xs, (!isBlank c) = true)
    (hys : Stops (!isBlank ·) ys) : cutAtBlank (xs ++ ys) = (xs, trimStart ys) := by
  rw [cutAtBlank, takeWhile_append hxs hys, dropWhile_append hxs hys]

/-- A text that begins with white space but does not end in it has something behind it. -/
theorem eq_nil_or_exists_blanks {cs : List Char} (hcs : Stops (!isBlank ·) cs)
    (hend : Stops isBlank cs.reverse) :
    cs = [] ∨ trimStart cs ≠ [] ∧ ∃ bs : Blanks, bs.chars ++ trimStart cs = cs := by
  rcases List.eq_nil_or_concat' cs with hnil | ⟨before, last, hlast⟩
  · exact .inl hnil
  right
  rw [hlast, List.reverse_append] at hend
  have hvisible : isBlank last = false := hend last rfl
  -- something visible is left, as the text ends in it
  have hbehind : trimStart cs ≠ [] := by
    intro hnil
    have hblank := List.dropWhile_eq_nil_iff.1 hnil last (by simp [hlast])
    rw [hvisible] at hblank
    cases hblank
  have hsplit : cs.takeWhile isBlank ++ trimStart cs = cs := List.takeWhile_append_dropWhile
  -- something is cut off, as the text does not begin with what is visible
  have hblanks : cs.takeWhile isBlank ≠ [] := by
    intro hnil
    rw [hnil, List.nil_append] at hsplit
    have hstops : Stops isBlank (trimStart cs) := stops_dropWhile isBlank cs
    obtain ⟨c, rest, hc⟩ := List.exists_cons_of_ne_nil (l := cs) (by simp [hlast])
    rw [hsplit, hc] at hstops
    rw [hc] at hcs
    have hblank : (!isBlank c) = false := hcs c rfl
    rw [hstops c rfl] at hblank
    cases hblank
  exact ⟨hbehind, ⟨_, hblanks, fun c => List.mem_takeWhile_imp⟩, hsplit⟩

end Text

namespace TimeText

/-! ### Times -/

/-- A numeral is worth what it says in its unit. -/
theorem value?_numeral (t : Time) :
    value? (sign t.negative ++ t.numeral) t.unit = some t.value := by
  rw [value?, ofChars?_sign_append fun _ => stops_of_isNumeralChar fun c => t.isNumeralChar_of_mem,
    unsigned?_numeral, Option.map_some, Option.map_some]
  refine congrArg some ?_
  show t.unit.toMilliseconds (Exact.ofDecimal _) = t.value
  rw [ofDecimal_numeral, Time.value]
  cases t.unit with
  | milliseconds => rw [TimeUnit.toMilliseconds, TimeUnit.size, mul_one]
  | seconds => rfl

/-- A unit is read in either case, whatever comes after it. -/
theorem unit?_append {letters : List Char} {unit : TimeUnit}
    (h : letters.map Char.toLower = unit.name) (rest : List Char) :
    unit? (letters ++ rest) = some (unit, rest) := by
  cases unit with
  | milliseconds =>
    obtain ⟨a, as, rfl, ha, has⟩ := List.map_eq_cons_iff.1 h
    obtain ⟨b, bs, rfl, hb, hbs⟩ := List.map_eq_cons_iff.1 has
    rw [List.map_eq_nil_iff.1 hbs]
    have hm : a = 'm' ∨ a = 'M' := eq_or_eq_of_toLower ha
    have hs : b = 's' ∨ b = 'S' := eq_or_eq_of_toLower hb
    rcases hm with rfl | rfl <;> exact if_pos hs
  | seconds =>
    obtain ⟨b, bs, rfl, hb, hbs⟩ := List.map_eq_cons_iff.1 h
    rw [List.map_eq_nil_iff.1 hbs]
    have hs : b = 's' ∨ b = 'S' := eq_or_eq_of_toLower hb
    rcases hs with rfl | rfl <;> rfl

/-- What is read as a unit is one. -/
theorem exists_of_unit? {cs rest : List Char} {unit : TimeUnit} (h : unit? cs = some (unit, rest)) :
    ∃ letters, letters.map Char.toLower = unit.name ∧ letters ++ rest = cs := by
  unfold unit? at h
  split at h
  · split at h
    · next hs =>
      cases h
      rcases hs with rfl | rfl
      · exact ⟨['m', 's'], rfl, rfl⟩
      · exact ⟨['m', 'S'], rfl, rfl⟩
    · cases h
  · split at h
    · next hs =>
      cases h
      rcases hs with rfl | rfl
      · exact ⟨['M', 's'], rfl, rfl⟩
      · exact ⟨['M', 'S'], rfl, rfl⟩
    · cases h
  · cases h
    exact ⟨['s'], rfl, rfl⟩
  · cases h
    exact ⟨['S'], rfl, rfl⟩
  · cases h

/-- Digits and points end where a unit begins. -/
theorem stops_of_map_toLower {letters : List Char} {unit : TimeUnit}
    (h : letters.map Char.toLower = unit.name) (rest : List Char) :
    Stops Time.isNumeralChar (letters ++ rest) := by
  cases unit with
  | milliseconds =>
    obtain ⟨a, as, rfl, ha, -⟩ := List.map_eq_cons_iff.1 h
    have hm : a = 'm' ∨ a = 'M' := eq_or_eq_of_toLower ha
    rcases hm with rfl | rfl <;> exact Text.stops_cons (by decide) _
  | seconds =>
    obtain ⟨a, as, rfl, ha, -⟩ := List.map_eq_cons_iff.1 h
    have hs : a = 's' ∨ a = 'S' := eq_or_eq_of_toLower ha
    rcases hs with rfl | rfl <;> exact Text.stops_cons (by decide) _

theorem isNumeralChar_eq (c : Char) : isNumeralChar c = Time.isNumeralChar c := by
  rw [isNumeralChar, Time.isNumeralChar, isDigit_eq]

/-- After the sign, a scan takes the digits and points and reads a unit. -/
theorem scan?_sign_append {negative : Bool} {digits letters : List Char}
    (hsign : negative = false → Stops (· == '-') (digits ++ letters))
    (hdigits : ∀ c ∈ digits, Time.isNumeralChar c = true)
    (hletters : Stops Time.isNumeralChar letters) :
    scan? (sign negative ++ (digits ++ letters)) =
      if digits.isEmpty then none
      else (unit? letters).map fun (unit, rest) => (sign negative ++ digits, unit, rest) := by
  have hchar : isNumeralChar = Time.isNumeralChar := funext isNumeralChar_eq
  have htake := Text.takeWhile_append hdigits hletters
  have hdrop := Text.dropWhile_append hdigits hletters
  -- without a sign it has to be seen that the digits do not begin with one
  cases negative with
  | true =>
    show scan? ('-' :: (digits ++ letters)) = _
    rw [scan?, hchar]
    simp only [htake, hdrop]
    rfl
  | false =>
    show scan? (digits ++ letters) = _
    unfold scan?
    rw [hchar]
    split
    next sign body hbody =>
    split at hbody
    · next rest hcs => exact absurd (hsign rfl '-' (by rw [hcs]; rfl)) (by decide)
    · cases hbody
      simp only [htake, hdrop]
      rfl

/-- **A scan finds a numeral and a unit after it**, and looks no further. -/
theorem scan?_eq_some_iff {cs numeral rest : List Char} {unit : TimeUnit} :
    scan? cs = some (numeral, unit, rest) ↔ ∃ negative digits letters,
      digits ≠ [] ∧ (∀ c ∈ digits, Time.isNumeralChar c = true) ∧
        letters.map Char.toLower = unit.name ∧ numeral = sign negative ++ digits ∧
          cs = numeral ++ (letters ++ rest) := by
  constructor
  · intro h
    -- the text as a sign, the digits and points after it, and what comes then
    obtain ⟨negative, body, rfl, hbody⟩ := exists_eq_sign_append cs
    have hsplit : body.takeWhile Time.isNumeralChar ++ body.dropWhile Time.isNumeralChar = body :=
      List.takeWhile_append_dropWhile
    have hdigits : ∀ c ∈ body.takeWhile Time.isNumeralChar, Time.isNumeralChar c = true :=
      fun c => List.mem_takeWhile_imp
    rw [← hsplit] at h hbody
    rw [scan?_sign_append hbody hdigits (Text.stops_dropWhile _ _)] at h
    split at h
    · cases h
    next hempty =>
    obtain ⟨⟨unit', rest'⟩, hunit, h⟩ := Option.map_eq_some_iff.1 h
    cases h
    obtain ⟨letters, hletters, hrest⟩ := exists_of_unit? hunit
    refine ⟨negative, _, letters, fun hnil => hempty (List.isEmpty_iff.2 hnil), hdigits, hletters,
      rfl, ?_⟩
    rw [hrest, List.append_assoc, hsplit]
  · rintro ⟨negative, digits, letters, hne, hdigits, hletters, rfl, rfl⟩
    have hstops := stops_of_isNumeralChar hdigits
    have hsign : Stops (· == '-') (digits ++ (letters ++ rest)) := by
      cases digits with
      | nil => exact absurd rfl hne
      | cons c digits => exact hstops
    rw [List.append_assoc, scan?_sign_append (fun _ => hsign) hdigits
      (stops_of_map_toLower hletters rest), if_neg (by rwa [List.isEmpty_iff]),
      unit?_append hletters rest]
    rfl

/-- A time is read as its value. -/
theorem time?_chars (t : Time) : time? t.chars = some t.value := by
  obtain ⟨c, cs, hn, -⟩ := t.exists_numeral_eq_cons
  have hne : t.numeral ≠ [] := by
    rw [hn]
    exact List.cons_ne_nil c cs
  have hscan : scan? t.chars = some (sign t.negative ++ t.numeral, t.unit, []) :=
    scan?_eq_some_iff.2 ⟨t.negative, t.numeral, t.letters, hne, fun c => t.isNumeralChar_of_mem,
      t.map_letters, rfl, by rw [Time.chars, List.append_nil, List.append_assoc]⟩
  rw [time?, hscan]
  exact value?_numeral t

/-- What is read as a time is one. -/
theorem exists_of_time? {cs : List Char} {x : ℚ} (h : time? cs = some x) :
    ∃ t : Time, t.chars = cs := by
  rw [time?] at h
  split at h
  · next numeral unit hscan =>
    obtain ⟨negative, digits, letters, -, hdigits, hletters, rfl, rfl⟩ := scan?_eq_some_iff.1 hscan
    rw [value?, ofChars?_sign_append fun _ => stops_of_isNumeralChar hdigits] at h
    obtain ⟨d, hd, -⟩ := Option.map_eq_some_iff.1 h
    obtain ⟨n, hn, -⟩ := Option.map_eq_some_iff.1 hd
    obtain ⟨t, ht⟩ := exists_time negative hn hletters
    exact ⟨t, ht.trans (by rw [List.append_nil, List.append_assoc])⟩
  · cases h

/-- A text is read as a time precisely when it is one. -/
theorem time?_eq_some_iff {cs : List Char} {x : ℚ} :
    time? cs = some x ↔ ∃ t : Time, t.chars = cs ∧ t.value = x := by
  constructor
  · intro h
    obtain ⟨t, rfl⟩ := exists_of_time? h
    exact ⟨t, rfl, Option.some.inj ((time?_chars t).symm.trans h)⟩
  · rintro ⟨t, rfl, rfl⟩
    exact time?_chars t

/-! ### Easings -/

theorem isEasingChar_eq (c : Char) : isEasingChar c = Easing.isNameChar c := by
  have hlower : ('a' ≤ c ∧ c ≤ 'z') ↔ c.isLower = true := isLower_iff_toNat.symm
  have hupper : ('A' ≤ c ∧ c ≤ 'Z') ↔ c.isUpper = true := isUpper_iff_toNat.symm
  rw [Bool.eq_iff_iff, isEasingChar, Easing.isNameChar, Char.isAlpha]
  simp only [Bool.or_eq_true, Bool.and_eq_true, decide_eq_true_eq, hlower, hupper]
  rw [or_comm (a := c.isLower = true)]

/-- What is taken for arguments is enclosed by parentheses. -/
theorem exists_eq_parentheses {cs : List Char} (hlen : 2 < cs.length) (hfirst : cs.head? = some '(')
    (hlast : cs.getLast? = some ')') : ∃ inner, inner ≠ [] ∧ cs = '(' :: (inner ++ [')']) := by
  obtain ⟨before, rfl⟩ := List.getLast?_eq_some_iff.1 hlast
  cases before with
  | nil => exact absurd hlen (by decide)
  | cons c inner =>
    have hc : c = '(' := Option.some.inj hfirst
    refine ⟨inner, ?_, by rw [hc]; rfl⟩
    rintro rfl
    exact absurd hlen (Nat.lt_irrefl 2)

/-- What is taken for an easing is one. -/
theorem isEasing_eq_true_iff {cs : List Char} :
    isEasing cs = true ↔ ∃ e : Easing, e.chars = cs := by
  have hchar : isEasingChar = Easing.isNameChar := funext isEasingChar_eq
  rw [isEasing, hchar]
  simp only [Bool.and_eq_true, Bool.or_eq_true, Bool.not_eq_true', List.isEmpty_eq_false_iff,
    List.isEmpty_iff, decide_eq_true_eq]
  constructor
  · rintro ⟨hname, harguments⟩
    have hsplit : cs.takeWhile Easing.isNameChar ++ cs.dropWhile Easing.isNameChar = cs :=
      List.takeWhile_append_dropWhile
    have halpha : ∀ c ∈ cs.takeWhile Easing.isNameChar, c.isAlpha = true ∨ c = '-' := by
      intro c hc
      simpa [Easing.isNameChar] using List.mem_takeWhile_imp hc
    -- a name alone, or with arguments
    rcases harguments with hnone | ⟨⟨hlen, hfirst⟩, hlast⟩
    · refine ⟨⟨_, none, hname, halpha, (Option.some_ne_none []).symm⟩, ?_⟩
      rw [hnone] at hsplit
      exact hsplit
    · obtain ⟨inner, hinner, hparentheses⟩ := exists_eq_parentheses hlen hfirst hlast
      refine ⟨⟨_, some inner, hname, halpha, fun h => hinner (Option.some.inj h)⟩, ?_⟩
      rw [hparentheses] at hsplit
      exact hsplit
  · rintro ⟨e, rfl⟩
    -- the name ends where the parentheses begin, or with the text
    have hstops : Stops Easing.isNameChar e.parentheses := e.stops_parentheses (by decide)
    rw [Easing.chars, Text.takeWhile_append (fun c => e.isNameChar_of_mem) hstops,
      Text.dropWhile_append (fun c => e.isNameChar_of_mem) hstops]
    refine ⟨e.name_ne_nil, ?_⟩
    have hinner := e.arguments_ne_nil
    unfold Easing.parentheses
    cases ha : e.arguments with
    | none => exact .inl rfl
    | some inner =>
      rw [ha] at hinner
      have hlen : 0 < inner.length := List.length_pos_iff.2 fun h => hinner (congrArg some h)
      refine .inr ⟨⟨?_, rfl⟩, List.getLast?_eq_some_iff.2 ⟨'(' :: inner, rfl⟩⟩
      simp only [Option.elim_some, List.length_cons, List.length_append, List.length_nil]
      omega

/-- An easing after white space is read, or nothing if nothing is left. -/
theorem easing?_trimStart (easing : Option (Blanks × Easing)) :
    easing? (Text.trimStart (optional Easing.chars easing)) =
      some (easing.map fun x => String.ofList x.2.chars) := by
  cases easing with
  | none => rfl
  | some x =>
    have hempty : x.2.chars.isEmpty = false :=
      List.isEmpty_eq_false_iff.2 fun h => x.2.name_ne_nil (List.append_eq_nil_iff.1 h).1
    rw [optional_some, Text.trimStart_blanks_append x.1 x.2.stops_chars, easing?, hempty,
      isEasing_eq_true_iff.2 ⟨x.2, rfl⟩]
    rfl

theorem exists_of_easing? {cs : List Char} {easing : Option String} (hcs : cs ≠ [])
    (h : easing? cs = some easing) : ∃ e : Easing, e.chars = cs := by
  rw [easing?, List.isEmpty_eq_false_iff.2 hcs, if_neg Bool.false_ne_true] at h
  split at h
  · next heasing => exact isEasing_eq_true_iff.1 heasing
  · cases h

/-! ### Expressions -/

/-- What is read before the first white space is a time that the text begins with. -/
theorem exists_of_time?_cutAtBlank {cs : List Char} {x : ℚ}
    (h : time? (Text.cutAtBlank cs).1 = some x) :
    ∃ t : Time, t.chars ++ cs.dropWhile (!Text.isBlank ·) = cs := by
  obtain ⟨t, ht, -⟩ := time?_eq_some_iff.1 h
  refine ⟨t, ?_⟩
  rw [ht]
  exact List.takeWhile_append_dropWhile

/-- What comes before the first white space of an easing is no time. -/
theorem time?_cutAtBlank_easing (easing : Option (Blanks × Easing)) :
    time? (τ := ℚ) (Text.cutAtBlank (Text.trimStart (optional Easing.chars easing))).1 = none := by
  cases easing with
  | none => rfl
  | some x =>
    rw [optional_some, Text.trimStart_blanks_append x.1 x.2.stops_chars,
      Option.eq_none_iff_forall_ne_some]
    intro y hy
    obtain ⟨t, ht⟩ := exists_of_time?_cutAtBlank hy
    exact t.chars_append_ne _ x.2 ht

/-- An expression is read as its timings. -/
theorem timings?_chars (e : Expression) : timings? e.chars = some e.timings := by
  have hfirst : Text.cutAtBlank e.chars = (e.duration.chars, Text.trimStart e.rest) :=
    Text.cutAtBlank_append e.duration.not_isBlank_of_mem e.stops_rest
  have heasing := easing?_trimStart e.easing
  rw [timings?, hfirst]
  simp only [time?_chars, Option.bind_eq_bind, Option.bind_some]
  unfold Expression.rest Expression.timings
  -- what follows the duration is tried as a delay first
  cases hd : e.delay with
  | none =>
    simp only [optional_none, List.nil_append, time?_cutAtBlank_easing, heasing]
    rfl
  | some x =>
    have htrim : Text.trimStart (x.1.chars ++ x.2.chars ++ optional Easing.chars e.easing) =
        x.2.chars ++ optional Easing.chars e.easing := by
      rw [List.append_assoc]
      exact Text.trimStart_blanks_append x.1 (x.2.stops_chars _)
    have hsecond : Text.cutAtBlank (x.2.chars ++ optional Easing.chars e.easing) =
        (x.2.chars, Text.trimStart (optional Easing.chars e.easing)) :=
      Text.cutAtBlank_append x.2.not_isBlank_of_mem (stops_optional e.easing)
    simp only [optional_some, htrim, hsecond, time?_chars, heasing]
    rfl

/-- What is taken for the easing is one, with white space before it. -/
theorem exists_optional_of_easing? {cs : List Char} {easing : Option String}
    (hcs : Stops (!Text.isBlank ·) cs) (hend : Stops Text.isBlank cs.reverse)
    (h : easing? (Text.trimStart cs) = some easing) :
    ∃ part, optional Easing.chars part = cs := by
  rcases Text.eq_nil_or_exists_blanks hcs hend with rfl | ⟨hne, bs, hbs⟩
  · exact ⟨none, rfl⟩
  · obtain ⟨e, he⟩ := exists_of_easing? hne h
    exact ⟨some (bs, e), by rw [optional_some, he, hbs]⟩

/-- What is taken for the delay is one, with white space before it and maybe an easing behind. -/
theorem exists_optional_of_time? {cs : List Char} {x : ℚ} {easing : Option String}
    (hcs : Stops (!Text.isBlank ·) cs) (hend : Stops Text.isBlank cs.reverse)
    (hdelay : time? (Text.cutAtBlank (Text.trimStart cs)).1 = some x)
    (heasing : easing? (Text.cutAtBlank (Text.trimStart cs)).2 = some easing) :
    ∃ delay part, optional Time.chars (some delay) ++ optional Easing.chars part = cs := by
  obtain ⟨t, hcut⟩ := exists_of_time?_cutAtBlank hdelay
  have htrimEnd : Stops Text.isBlank (Text.trimStart cs).reverse := hend.reverse_dropWhile _
  obtain ⟨part, hpart⟩ := exists_optional_of_easing? (Text.stops_dropWhile _ _)
    (htrimEnd.reverse_dropWhile _) heasing
  rcases Text.eq_nil_or_exists_blanks hcs hend with rfl | ⟨-, bs, hbs⟩
  · exact absurd (List.append_eq_nil_iff.1 hcut).1 t.chars_ne_nil
  · refine ⟨(bs, t), part, ?_⟩
    calc bs.chars ++ t.chars ++ optional Easing.chars part
        = bs.chars ++ (t.chars ++ (Text.trimStart cs).dropWhile (!Text.isBlank ·)) := by
          rw [List.append_assoc, hpart]
      _ = cs := by rw [hcut, hbs]

/-- What is read as timings is an expression. -/
theorem exists_of_timings? {cs : List Char} {x : Timings ℚ} (hend : Stops Text.isBlank cs.reverse)
    (h : timings? cs = some x) : ∃ e : Expression, e.chars = cs := by
  obtain ⟨duration, hduration, h⟩ := Option.bind_eq_some_iff.1 h
  obtain ⟨t, hcut⟩ := exists_of_time?_cutAtBlank hduration
  have hrest := Text.stops_dropWhile (!Text.isBlank ·) cs
  have hrestEnd := hend.reverse_dropWhile (!Text.isBlank ·)
  simp only at h
  -- what follows the duration was a delay, or else an easing
  split at h
  · next delay hdelay =>
    obtain ⟨easing, heasing, -⟩ := Option.map_eq_some_iff.1 h
    obtain ⟨delay, part, hpart⟩ := exists_optional_of_time? hrest hrestEnd hdelay heasing
    refine ⟨⟨t, some delay, part⟩, ?_⟩
    rw [Expression.chars, Expression.rest, hpart, hcut]
  · obtain ⟨easing, heasing, -⟩ := Option.map_eq_some_iff.1 h
    obtain ⟨part, hpart⟩ := exists_optional_of_easing? hrest hrestEnd heasing
    refine ⟨⟨t, none, part⟩, ?_⟩
    rw [Expression.chars, Expression.rest, optional_none, List.nil_append, hpart, hcut]

end TimeText

open TimeText in
/-- **The reader accepts precisely its grammar.** -/
theorem reads_iff_expression (s : String) :
    ((Timings.read (τ := ℚ) s true).2 = [] ↔ ∃! e : Expression, Text.trim s.toList = e.chars) ∧
    (∀ e : Expression, Text.trim s.toList = e.chars → Timings.read s true = (e.timings, [])) ∧
    ((¬∃ e : Expression, Text.trim s.toList = e.chars) →
      Timings.read (τ := ℚ) s true = (⟨0, 0, none⟩, [.invalidTiming s])) := by
  have hread : ∀ e : Expression, Text.trim s.toList = e.chars →
      Timings.read s true = (e.timings, []) := by
    intro e he
    rw [Timings.read, he, timings?_chars]
    rfl
  have hreport : (¬∃ e : Expression, Text.trim s.toList = e.chars) →
      Timings.read (τ := ℚ) s true = (⟨0, 0, none⟩, [.invalidTiming s]) := by
    intro hnone
    have htimings : timings? (τ := ℚ) (Text.trim s.toList) = none := by
      rw [Option.eq_none_iff_forall_ne_some]
      intro x hx
      obtain ⟨e, he⟩ := exists_of_timings? (Text.stops_reverse_trim s.toList) hx
      exact hnone ⟨e, he.symm⟩
    rw [Timings.read, htimings]
    rfl
  refine ⟨⟨fun hnil => ?_, fun ⟨e, he, _⟩ => by rw [hread e he]⟩, hread, hreport⟩
  -- if there is a phrase it is the only one, as no two have the same characters
  by_cases hexists : ∃ e : Expression, Text.trim s.toList = e.chars
  · obtain ⟨e, he⟩ := hexists
    exact ⟨e, he, fun e' he' => Expression.chars_injective (he'.symm.trans he)⟩
  · rw [hreport hexists] at hnil
    cases hnil

/-- Arguments may hold white space, and only the first dash here is a sign. -/
example : Timings.read (τ := ℚ) " 1.5s  -20MS steps(2, jump-none) " true =
    (⟨1500, -20, some "steps(2, jump-none)"⟩, []) := by
  decide +kernel

end Choreography
