/-
Choreography/Proofs/Selector.lean

What is left of a selector when it is normalized.

The entries of a selector stand between its commas, with white space around them
(`Selector.Lists`); there is one way only to read them (`lists_iff`).  Normalizing keeps those
that are neither empty nor the element itself.  What is kept holds no comma and has no white
space at its ends, so writing it down and reading it again gives the same entries
(`entries_join`), and nothing is left to be removed.

Main result: `forEach_normalizes`.
-/
import Choreography.Animation.Build
import Choreography.Animation.Validation
import Choreography.Proofs.Reading

namespace Choreography

/-! ### Trimming and splitting -/

namespace Text

/-- `entry` is what stands in a text between white space at both ends. -/
structure Trimmed (text entry : List Char) : Prop where
  around : ∃ before after, text = before ++ entry ++ after ∧
    (∀ c ∈ before, isBlank c = true) ∧ ∀ c ∈ after, isBlank c = true
  begins : Stops isBlank entry
  ends : Stops isBlank entry.reverse

/-- White space at the end is cut off, and no more. -/
theorem trimEnd_append_blanks {entry after : List Char} (hafter : ∀ c ∈ after, isBlank c = true)
    (hends : Stops isBlank entry.reverse) : trimEnd (entry ++ after) = entry := by
  have hblank : ∀ c ∈ after.reverse, isBlank c = true := by
    simpa using hafter
  rw [trimEnd, trimStart, List.reverse_append, dropWhile_append hblank hends, List.reverse_reverse]

/-- What stands between white space is what trimming leaves. -/
theorem Trimmed.eq_trim {text entry : List Char} (h : Trimmed text entry) : entry = trim text := by
  obtain ⟨⟨before, after, rfl, hbefore, hafter⟩, hbegins, hends⟩ := h
  rw [List.append_assoc, trim, trimStart, List.dropWhile_append_of_pos hbefore]
  cases entry with
  | nil =>
    -- where nothing stands between them the white space at both ends is dropped at once
    rw [List.nil_append, List.dropWhile_eq_nil_iff.2 hafter]
    rfl
  | cons c entry =>
    have hstops : Stops isBlank (c :: entry ++ after) := hbegins
    rw [dropWhile_eq_self hstops, trimEnd_append_blanks hafter hends]

theorem stops_trim (text : List Char) : Stops isBlank (trim text) := by
  obtain ⟨after, hafter⟩ := List.rdropWhile_prefix isBlank (trimStart text)
  have hstart : Stops isBlank (trimStart text) := stops_dropWhile isBlank text
  rw [← hafter] at hstart
  exact hstart.of_append

/-- Trimming cuts off white space, and all of it. -/
theorem trimmed_trim (text : List Char) : Trimmed text (trim text) where
  around := by
    refine ⟨text.takeWhile isBlank, (trimStart text).rtakeWhile isBlank, ?_,
      fun c => List.mem_takeWhile_imp, fun c => List.mem_rtakeWhile_imp⟩
    have hends : trim text ++ (trimStart text).rtakeWhile isBlank = trimStart text :=
      List.rdropWhile_append_rtakeWhile
    rw [List.append_assoc, hends]
    exact List.takeWhile_append_dropWhile.symm
  begins := stops_trim text
  ends := stops_reverse_trim text

theorem trimmed_iff {text entry : List Char} : Trimmed text entry ↔ entry = trim text :=
  ⟨Trimmed.eq_trim, fun h => h ▸ trimmed_trim text⟩

theorem trim_eq_self {entry : List Char} (hbegins : Stops isBlank entry)
    (hends : Stops isBlank entry.reverse) : trim entry = entry :=
  (Trimmed.eq_trim ⟨⟨[], [], by simp, nofun, nofun⟩, hbegins, hends⟩).symm

/-- Splitting is that of the library. -/
theorem splitOn_eq (c : Char) (cs : List Char) : splitOn c cs = cs.splitOn c := by
  rw [List.splitOn_eq_splitOnP]
  induction cs with
  | nil => rfl
  | cons a rest ih =>
    rw [splitOn, List.splitOnP_cons_eq_if_modifyHead, ih]
    -- at a separator a part begins, and any other character goes to the first part
    by_cases h : a = c
    · simp [h]
    · obtain ⟨part, parts, hparts⟩ := List.exists_cons_of_ne_nil (rest.splitOnP_ne_nil (· == c))
      simp [h, hparts]

theorem splitOn_ne_nil (c : Char) (cs : List Char) : splitOn c cs ≠ [] := by
  rw [splitOn_eq, List.splitOn_eq_splitOnP]
  exact List.splitOnP_ne_nil _ cs

/-- No part holds the separator. -/
theorem notMem_of_mem_splitOn {c : Char} {cs : List Char} :
    ∀ part ∈ splitOn c cs, c ∉ part := by
  induction cs with
  | nil => simp [splitOn]
  | cons a rest ih =>
    rw [splitOn]
    split
    · exact List.forall_mem_cons.2 ⟨List.not_mem_nil, ih⟩
    · next h =>
      obtain ⟨part, parts, hparts⟩ := List.exists_cons_of_ne_nil (splitOn_ne_nil c rest)
      rw [hparts, List.forall_mem_cons] at ih
      rw [hparts]
      exact List.forall_mem_cons.2 ⟨List.not_mem_cons_of_ne_of_not_mem (Ne.symm h) ih.1, ih.2⟩

end Text

/-! ### Entries -/

namespace Selector

open Text (Stops Trimmed)

/-- The entries of a selector stand between its commas, with white space around them. -/
def Lists (written : String) (entries : List String) : Prop :=
  ∃ parts : List (List Char), parts ≠ [] ∧ (∀ part ∈ parts, ',' ∉ part) ∧
    [','].intercalate parts = written.toList ∧
      List.Forall₂ (fun part entry => Trimmed part entry.toList) parts entries

/-- Entries are what trimming leaves of the parts. -/
theorem forall₂_trimmed_iff {parts : List (List Char)} {es : List String} :
    List.Forall₂ (fun part entry => Trimmed part entry.toList) parts es ↔
      es = parts.map fun part => String.ofList (Text.trim part) := by
  have hentry : ∀ (part : List Char) (entry : String),
      Trimmed part entry.toList ↔ String.ofList (Text.trim part) = entry := by
    intro part entry
    rw [Text.trimmed_iff, ← String.toList_inj, String.toList_ofList, eq_comm]
  simp only [hentry]
  rw [← List.forall₂_map_left_iff (R := Eq) (f := fun part => String.ofList (Text.trim part)),
    List.forall₂_eq_eq_eq, eq_comm]

/-- A selector lists its entries, and no others. -/
theorem lists_iff {written : String} {es : List String} :
    Lists written es ↔ es = (entries written).map String.ofList := by
  rw [entries, List.map_map]
  constructor
  · rintro ⟨parts, hne, hcomma, hwritten, htrimmed⟩
    -- no part holds a comma, so the text is split where they were put together
    rw [← hwritten, Text.splitOn_eq, List.splitOn_intercalate ',' hcomma hne]
    exact forall₂_trimmed_iff.1 htrimmed
  · intro h
    refine ⟨Text.splitOn ',' written.toList, Text.splitOn_ne_nil _ _, Text.notMem_of_mem_splitOn,
      ?_, forall₂_trimmed_iff.2 h⟩
    rw [Text.splitOn_eq, List.intercalate_splitOn]

/-- An entry holds no comma and has no white space at its ends. -/
structure Clean (entry : List Char) : Prop where
  comma : ',' ∉ entry
  begins : Stops Text.isBlank entry
  ends : Stops Text.isBlank entry.reverse

theorem clean_of_mem_entries {written : String} : ∀ e ∈ entries written, Clean e := by
  intro e he
  obtain ⟨part, hpart, rfl⟩ := List.mem_map.1 he
  refine ⟨fun hcomma => ?_, Text.stops_trim part, Text.stops_reverse_trim part⟩
  obtain ⟨before, after, haround, -, -⟩ := (Text.trimmed_trim part).around
  refine Text.notMem_of_mem_splitOn part hpart ?_
  rw [haround]
  exact List.mem_append_left _ (List.mem_append_right _ hcomma)

/-! ### Entries written down again -/

theorem join_eq (es : List (List Char)) : join es = [',', ' '].intercalate es := by
  induction es with
  | nil => rfl
  | cons e rest ih =>
    cases rest with
    | nil => simp [join]
    | cons e' rest =>
      rw [List.intercalate_cons_cons, ← ih]
      simp [join]

/-- As parts between commas, all entries but the first begin with a blank. -/
theorem join_cons (e : List Char) (rest : List (List Char)) :
    join (e :: rest) = [','].intercalate (e :: rest.map (' ' :: ·)) := by
  induction rest generalizing e with
  | nil => simp [join]
  | cons e' rest ih =>
    have hblank : [','].intercalate ((' ' :: e') :: rest.map (' ' :: ·)) =
        ' ' :: join (e' :: rest) := by
      rw [ih]
      cases rest with
      | nil => simp
      | cons e'' rest => simp [List.intercalate_cons_cons]
    rw [List.map_cons, List.intercalate_cons_cons, hblank]
    simp [join]

theorem Clean.trim_eq {entry : List Char} (h : Clean entry) : Text.trim entry = entry :=
  Text.trim_eq_self h.begins h.ends

/-- What was written down is read again. -/
theorem entries_join {e : List Char} {rest : List (List Char)} (h : ∀ e' ∈ e :: rest, Clean e') :
    entries (String.ofList (join (e :: rest))) = e :: rest := by
  rw [List.forall_mem_cons] at h
  obtain ⟨hfirst, hrest⟩ := h
  -- none of the parts holds a comma, so they are found again
  have hcomma : ∀ part ∈ e :: rest.map (' ' :: ·), ',' ∉ part := by
    refine List.forall_mem_cons.2 ⟨hfirst.comma, List.forall_mem_map.2 fun e' he' => ?_⟩
    exact List.not_mem_cons_of_ne_of_not_mem (by decide) (hrest e' he').comma
  -- the blank before an entry is cut off when it is read
  have htrim : ∀ e' ∈ rest, Text.trim (' ' :: e') = e' := fun e' he' => (hrest e' he').trim_eq
  rw [entries, String.toList_ofList, join_cons, Text.splitOn_eq,
    List.splitOn_intercalate ',' hcomma (List.cons_ne_nil _ _), List.map_cons, List.map_map,
    hfirst.trim_eq]
  exact congrArg _ ((List.map_congr_left htrim).trans (List.map_id _))

/-! ### What is kept -/

/-- The entries that are left to the host. -/
def kept (written : String) : List (List Char) :=
  (entries written).filter fun e => e ≠ selfEntry ∧ !e.isEmpty

/-- What is kept is an entry, not that of the element itself, and not empty. -/
theorem mem_kept {written : String} {e : List Char} :
    e ∈ kept written ↔ e ∈ entries written ∧ e ≠ selfEntry ∧ e ≠ [] := by
  simp [kept]

theorem normalize_eq (written : String) : normalize written = String.ofList (join (kept written)) :=
  rfl

/-- The entries of a normalized selector are those that were kept, or a single empty one. -/
theorem entries_normalize (written : String) :
    entries (normalize written) = if kept written = [] then [[]] else kept written := by
  have hclean : ∀ e ∈ kept written, Clean e := fun e he =>
    clean_of_mem_entries e (mem_kept.1 he).1
  rw [normalize_eq]
  cases h : kept written with
  | nil => rfl
  | cons e rest =>
    rw [h] at hclean
    rw [if_neg (List.cons_ne_nil e rest), entries_join hclean]

/-- Of what is normalized everything is kept again. -/
theorem kept_normalize (written : String) : kept (normalize written) = kept written := by
  rw [kept, entries_normalize]
  split
  · next h => rw [h]; rfl
  · exact List.filter_eq_self.2 fun e he => (List.mem_filter.1 he).2

/-- So there is nothing left to normalize. -/
theorem normalize_normalize (written : String) :
    normalize (normalize written) = normalize written := by
  rw [normalize_eq, kept_normalize, normalize_eq]

/-- A normalized selector does not name the element itself. -/
theorem namesSelf_normalize (written : String) : namesSelf (normalize written) = false := by
  rw [namesSelf, entries_normalize, List.any_eq_false]
  split
  · decide
  · intro e he
    simpa using (mem_kept.1 he).2.1

/-- Where an entry is kept there is something to ask the host for. -/
theorem isBlankText_normalize (written : String) :
    Text.isBlankText (normalize written) = true ↔ kept written = [] := by
  rw [normalize_eq, Text.isBlankText, String.toList_ofList]
  constructor
  · intro hblank
    cases h : kept written with
    | nil => rfl
    | cons e rest =>
      have hkept : e ∈ kept written := h ▸ List.mem_cons_self
      obtain ⟨c, cs, rfl⟩ := List.exists_cons_of_ne_nil (mem_kept.1 hkept).2.2
      -- a kept entry begins with a character that is seen
      have hvisible : Text.isBlank c = false :=
        (clean_of_mem_entries _ (mem_kept.1 hkept).1).begins c rfl
      have hmem : c ∈ join ((c :: cs) :: rest) := by
        cases rest <;> simp [join]
      rw [h, List.all_eq_true] at hblank
      rw [hblank c hmem] at hvisible
      cases hvisible
  · intro h
    rw [h]
    rfl

/-- A selector is about something if one of its entries is not empty. -/
theorem hasTarget_ofWritten (written : String) :
    (Selection.ofWritten written).hasTarget = true ↔ ∃ e ∈ entries written, e ≠ [] := by
  have hself : selfEntry ≠ [] := by decide
  rw [Selection.hasTarget, Bool.or_eq_true, Bool.not_eq_true', ← Bool.not_eq_true]
  show namesSelf written = true ∨ ¬Text.isBlankText (normalize written) = true ↔ _
  rw [isBlankText_normalize, namesSelf, List.any_eq_true]
  constructor
  · rintro (⟨e, he, heq⟩ | hkept)
    · rw [decide_eq_true_eq] at heq
      exact ⟨e, he, heq ▸ hself⟩
    · obtain ⟨e, he⟩ := List.exists_mem_of_ne_nil _ hkept
      exact ⟨e, (mem_kept.1 he).1, (mem_kept.1 he).2.2⟩
  · rintro ⟨e, he, hne⟩
    -- the entry names the element itself, or it is kept
    by_cases heq : e = selfEntry
    · exact .inl ⟨e, he, decide_eq_true heq⟩
    · exact .inr (List.ne_nil_of_mem (mem_kept.2 ⟨he, heq, hne⟩))

/-! ### Entries as strings -/

theorem mem_map_ofList {s : String} {es : List (List Char)} :
    s ∈ es.map String.ofList ↔ s.toList ∈ es := by
  rw [List.mem_map]
  constructor
  · rintro ⟨e, he, rfl⟩
    rwa [String.toList_ofList]
  · exact fun hs => ⟨s.toList, hs, String.ofList_toList⟩

theorem ofList_ne_empty {e : List Char} : String.ofList e ≠ "" ↔ e ≠ [] := by
  rw [Ne, ← String.toList_inj, String.toList_ofList]
  rfl

/-- The element is named if `:self` is among the entries. -/
theorem namesSelf_iff (written : String) :
    namesSelf written = true ↔ ":self" ∈ (entries written).map String.ofList := by
  rw [mem_map_ofList, namesSelf, List.any_eq_true]
  simp only [decide_eq_true_eq, exists_eq_right]
  rfl

/-- What is kept, as strings with a comma and a blank between them. -/
theorem normalize_eq_intercalate (written : String) :
    normalize written = ", ".intercalate
      (((entries written).map String.ofList).filter fun e => e ≠ ":self" ∧ e ≠ "") := by
  have hkept : kept written = (((entries written).map String.ofList).filter
      fun e => e ≠ ":self" ∧ e ≠ "").map String.toList := by
    have htest : ∀ e : List Char, (String.ofList e ≠ ":self" ∧ String.ofList e ≠ "") ↔
        (e ≠ selfEntry ∧ !e.isEmpty) := by
      intro e
      rw [ofList_ne_empty, Ne, ← String.toList_inj, String.toList_ofList]
      simp [selfEntry]
    rw [List.filter_map, List.map_map]
    simp only [Function.comp_def, htest, String.toList_ofList, List.map_id']
    rfl
  rw [← String.toList_inj, normalize_eq, String.toList_ofList, join_eq, String.toList_intercalate,
    hkept]
  rfl

end Selector

/-- **Normalizing a selector is a projection.**  A selector lists its entries in one way.  The
query that is built from it includes the element itself just if `:self` is among them, and asks the
host for the other entries that are not empty, in their order.  A query that is built from that
selector asks for the same and does not include the element.  What the query violates is that it
has no target, just if no entry is there, or else what its animation does. -/
theorem forEach_normalizes {τ : Type} [Quantity τ] (written : String) (animation : Animation τ) :
    ∃ (q : Selection) (entries : List String),
      Animation.forEach written animation = .query q animation none ∧
      (∀ es, Selector.Lists written es ↔ es = entries) ∧
      (q.includeSelf = true ↔ ":self" ∈ entries) ∧
      q.selector = ", ".intercalate (entries.filter fun e => e ≠ ":self" ∧ e ≠ "") ∧
      Animation.forEach q.selector animation =
        .query { q with written := some q.selector, includeSelf := false } animation none ∧
      (Animation.forEach written animation).validate =
        if ∃ e ∈ entries, e ≠ "" then animation.validate else .error .queryWithoutTarget := by
  refine ⟨.ofWritten written, (Selector.entries written).map String.ofList, rfl,
    fun es => Selector.lists_iff, ?_, ?_, ?_, ?_⟩
  · exact Selector.namesSelf_iff written
  · exact Selector.normalize_eq_intercalate written
  · show Animation.query (.ofWritten (Selector.normalize written)) animation none = _
    rw [Selection.ofWritten, Selector.normalize_normalize, Selector.namesSelf_normalize]
    rfl
  · have htarget : (∃ e ∈ (Selector.entries written).map String.ofList, e ≠ "") ↔
        (Selection.ofWritten written).hasTarget = true := by
      rw [Selector.hasTarget_ofWritten]
      simp only [List.mem_map, exists_exists_and_eq_and, Selector.ofList_ne_empty]
    rw [Animation.forEach, Animation.validate]
    simp only [htarget]

example : Selector.normalize " .a ,, :self,\u00a0.b" = ".a, .b" := by decide

end Choreography
