/-
Choreography/Proofs/Templates.lean

Templates are filled hole by hole.

A template is written as its literals with its holes between them, each in doubled braces.  If no
literal has a doubled opening brace in it or runs into one, and no hole a closing one, then the
template is `Clear`: the braces are where it says they are, and the text is cut again into what it
was made of (`ofText_chars`).  Each step of the cut takes one literal and one hole and goes on
behind them, so nothing is passed over and nothing is looked at twice.

What a hole is replaced by is said for each hole alone (`replacement`), without the cut.  The
replacements are put in as they are and not searched for holes again, whatever braces they have.

Main result: `interpolate_chars`.
-/
import Mathlib
import Choreography.Template
import Choreography.Quantity.Exact

namespace Choreography

/-! ### Doubled characters -/

namespace Text

variable {c : Char}

/-- Where nothing doubled begins, the cut is further on. -/
theorem cutAtDouble_cons {a : Char} {xs : List Char} (h : ¬[c, c] <+: a :: xs) :
    cutAtDouble c (a :: xs) =
      (cutAtDouble c xs).map fun (before, after) => (a :: before, after) := by
  cases xs with
  | nil => rfl
  | cons b xs =>
    have hab : ¬(a = c ∧ b = c) := by
      rintro ⟨rfl, rfl⟩
      exact h (List.prefix_append [b, b] xs)
    rw [cutAtDouble, if_neg hab]

/-- The cut is behind a text that has nothing doubled in it and does not run into what comes. -/
theorem cutAtDouble_append {xs : List Char} (h : ¬[c, c] <:+: xs) (hlast : xs.getLast? ≠ some c)
    (ys : List Char) : cutAtDouble c (xs ++ c :: c :: ys) = some (xs, ys) := by
  -- character by character: nothing doubled begins at any of them
  induction xs with
  | nil => exact if_pos ⟨rfl, rfl⟩
  | cons a xs ih =>
    have hfirst : ¬[c, c] <+: a :: (xs ++ c :: c :: ys) := by
      rw [List.cons_prefix_cons]
      rintro ⟨rfl, hnext⟩
      -- the doubled characters could only begin here and go on behind the text
      cases xs with
      | nil => exact hlast rfl
      | cons b xs =>
        obtain ⟨rfl, -⟩ := List.cons_prefix_cons.1 hnext
        exact h (List.prefix_append [c, c] xs).isInfix
    have hxs : xs.getLast? ≠ some c := by
      cases xs with
      | nil => nofun
      | cons b xs => rwa [List.getLast?_cons_cons] at hlast
    rw [List.cons_append, cutAtDouble_cons hfirst,
      ih (fun hinfix => h (List.infix_cons hinfix)) hxs]
    rfl

/-- Where nothing is doubled there is no cut. -/
theorem cutAtDouble_eq_none {xs : List Char} (h : ¬[c, c] <:+: xs) : cutAtDouble c xs = none := by
  induction xs with
  | nil => rfl
  | cons a xs ih =>
    rw [cutAtDouble_cons fun hbegins => h hbegins.isInfix,
      ih fun hinfix => h (List.infix_cons hinfix)]
    rfl

end Text

namespace Template

/-! ### How a template is written -/

/-- A hole in its braces. -/
def braced (hole : List Char) : List Char := '{' :: '{' :: hole ++ ['}', '}']

/-- A template with something in the place of each hole. -/
def fillWith (f : List Char → List Char) (t : Template) : List Char :=
  t.holes.flatMap (fun part => part.1 ++ f part.2) ++ t.tail

/-- How a template is written. -/
def chars (t : Template) : List Char := t.fillWith braced

/-- The braces of the holes can be told from the rest: no literal has doubled opening braces, or
ends in one in front of a hole, and no hole has doubled closing braces, or ends in one. -/
structure Clear (t : Template) : Prop where
  literals : ∀ part ∈ t.holes, ¬['{', '{'] <:+: part.1 ∧ part.1.getLast? ≠ some '{'
  holes : ∀ part ∈ t.holes, ¬['}', '}'] <:+: part.2 ∧ part.2.getLast? ≠ some '}'
  tail : ¬['{', '{'] <:+: t.tail

theorem chars_cons (literal hole : List Char) (holes : List (List Char × List Char))
    (tail : List Char) :
    (⟨(literal, hole) :: holes, tail⟩ : Template).chars =
      literal ++ '{' :: '{' :: (hole ++ '}' :: '}' :: (⟨holes, tail⟩ : Template).chars) := by
  simp [chars, fillWith, braced]

/-- Cutting gives back what a template was made of, if there are steps enough for its holes. -/
theorem cut_chars {t : Template} (h : t.Clear) {fuel : Nat} (hfuel : t.holes.length ≤ fuel) :
    cut fuel t.chars = t := by
  obtain ⟨holes, tail⟩ := t
  -- on the holes, each of which takes one step of the fuel
  induction holes generalizing fuel with
  | nil =>
    have htail : Text.cutAtDouble '{' tail = none := Text.cutAtDouble_eq_none h.tail
    cases fuel with
    | zero => rfl
    | succ fuel =>
      show cut (fuel + 1) tail = _
      rw [cut, htail]
  | cons part holes ih =>
    obtain ⟨literal, hole⟩ := part
    obtain ⟨⟨hliteral, hopen⟩, hliterals⟩ := List.forall_mem_cons.1 h.literals
    obtain ⟨⟨hhole, hclose⟩, hholes⟩ := List.forall_mem_cons.1 h.holes
    cases fuel with
    | zero => cases hfuel
    | succ fuel =>
      have hrest := ih ⟨hliterals, hholes, h.tail⟩ (Nat.le_of_succ_le_succ hfuel)
      -- the first cut is at the braces that open the hole, the second at those that close it
      rw [chars_cons, cut, Text.cutAtDouble_append hliteral hopen]
      simp only [Text.cutAtDouble_append hhole hclose, hrest]

/-- There are at least as many characters as holes. -/
theorem length_holes_le (t : Template) : t.holes.length ≤ t.chars.length := by
  obtain ⟨holes, tail⟩ := t
  induction holes with
  | nil => exact Nat.zero_le _
  | cons part holes ih =>
    rw [chars_cons]
    simp only [List.length_cons, List.length_append] at ih ⊢
    omega

/-- **A clear template is what its text is cut into.** -/
theorem ofText_chars {t : Template} (h : t.Clear) : ofText (String.ofList t.chars) = t := by
  rw [ofText, String.toList_ofList, String.length_ofList]
  exact cut_chars h t.length_holes_le

/-! ### What the holes are replaced by -/

/-- The name in a hole, unless the hole is blank. -/
def name? (hole : List Char) : Option String :=
  if Text.trim hole = [] then none else some (String.ofList (Text.trim hole))

variable {τ : Type} [Quantity τ]

/-- The text that a hole is replaced by: that of the parameter with its name, and nothing if there
is none.  A blank hole is left as it is. -/
def replacement (params : Params τ) (hole : List Char) : List Char :=
  match name? hole with
  | none => braced hole
  | some name => (params.get? name).elim [] fun value => value.display.toList

/-- The name that a hole asks for in vain. -/
def missing? (params : Params τ) (hole : List Char) : Option String :=
  (name? hole).filter fun name => (params.get? name).isNone

/-- The names that the holes of a template ask for in vain, once for each such hole. -/
def missing (params : Params τ) (t : Template) : List String :=
  (t.holes.map Prod.snd).filterMap (missing? params)

theorem fillHole_eq (params : Params τ) (hole : List Char) :
    fillHole params hole =
      (replacement params hole, (missing? params hole).toList.map Diagnostic.missingParam) := by
  unfold fillHole replacement missing? name?
  -- a blank hole is left as it is, and nothing is asked for
  by_cases hblank : Text.trim hole = []
  · simp only [hblank, List.isEmpty_nil, if_true]
    rfl
  · simp only [hblank, List.isEmpty_eq_false_iff.2 hblank, Bool.false_eq_true, if_false]
    cases hvalue : params.get? (String.ofList (Text.trim hole)) with
    | none => simp [Option.filter, hvalue]
    | some value => simp [Option.filter, hvalue]

theorem fillHoles_eq (params : Params τ) (t : Template) :
    fillHoles params t.holes =
      (t.holes.flatMap fun part => part.1 ++ replacement params part.2,
        (t.missing params).map Diagnostic.missingParam) := by
  obtain ⟨holes, tail⟩ := t
  induction holes with
  | nil => rfl
  | cons part holes ih =>
    rw [fillHoles, fillHole_eq, ih, missing, missing, List.map_cons, List.flatMap_cons]
    -- a hole without a parameter reports its name, in the order of the holes
    cases hmissing : missing? params part.2 with
    | none =>
      rw [List.filterMap_cons_none hmissing]
      rfl
    | some name =>
      rw [List.filterMap_cons_some hmissing]
      rfl

end Template

open Template in
/-- **Every hole is filled once**: with the text of its parameter as it is, with nothing if there is
no such parameter, which is reported, and not at all if it is blank. -/
theorem interpolate_chars {τ : Type} [Quantity τ] (params : Params τ) {t : Template}
    (h : t.Clear) :
    (Scalar.text (String.ofList t.chars)).interpolate params =
      (Scalar.text (String.ofList (t.fillWith (replacement params))),
        (t.missing params).map Diagnostic.missingParam) := by
  -- the text is cut into the template, and its holes are filled
  rw [Scalar.interpolate, ofText_chars h, render, fillHoles_eq]
  rfl

/-- Braces in literals, in a value and in what is left of a blank hole are no holes. -/
theorem interpolate_chars_braces :
    let value := "\x7b\x7by\x7d\x7d"
    let t : Template :=
      ⟨[("a\x7d".toList, " x ".toList), ([], ['y']), (['-'], "gone".toList), ([], [' '])], ['{']⟩
    let params : Params ℚ := .ofList [("x", .text value), ("y", .number 3)]
    t.Clear ∧
      (Scalar.text (String.ofList t.chars)).interpolate params =
        (Scalar.text ("a\x7d" ++ value ++ "3" ++ "-" ++ "\x7b\x7b \x7d\x7d" ++ "\x7b"),
          [.missingParam "gone"]) := by
  intro value t params
  have hclear : t.Clear := ⟨by decide, by decide, by decide⟩
  have hfilled : String.ofList (t.fillWith (Template.replacement params)) =
      "a\x7d" ++ value ++ "3" ++ "-" ++ "\x7b\x7b \x7d\x7d" ++ "\x7b" := by
    decide +kernel
  have hmissing : t.missing params = ["gone"] := by decide +kernel
  have hfill := interpolate_chars params hclear
  rw [hfilled, hmissing] at hfill
  exact ⟨hclear, hfill⟩

end Choreography
