/-
Choreography/Proofs/Selection.lean

What a query selects from a table.

A limit is applied in two places: a host that is asked for one match answers with no
more than one, and what it answers is cut to the first few or the last few matches.
Both together leave what the limit says of all the matches there are (`Kept`): the
cut is made as if the host had been asked for everything (`limited_query`).  The
element itself does not count towards the limit, but a query that selects nothing
else is resolved by it.
-/
import Choreography.Compile.Steps

namespace Choreography

/-! ### Tables -/

namespace QueryTable

/-- The elements that a table has for a question. -/
def found (t : QueryTable) (context : ElementId) (selector : String) : List ElementId :=
  ((t.rows.find? (answers context selector)).map QueryRow.elements).getD []

/-- All the matches, or as many as one of them. -/
theorem query_eq (t : QueryTable) (context : ElementId) (selector : String) (multi : Bool) :
    t.query context selector multi =
      if multi then t.found context selector else (t.found context selector).take 1 := by
  unfold query found
  cases t.rows.find? (answers context selector) with
  | none => simp
  | some row => rfl

end QueryTable

/-! ### Limits -/

/-- What a limit leaves of the elements that are found: all of them for zero, else a prefix or a
suffix of as many as it says, or of as many as there are. -/
structure Kept (limit : Int32) (found kept : List ElementId) : Prop where
  all : limit = 0 → kept = found
  first : 0 < limit → kept <+: found ∧ kept.length = min limit.toInt.natAbs found.length
  last : limit < 0 → kept <:+ found ∧ kept.length = min limit.toInt.natAbs found.length

theorem limit_pos_iff (limit : Int32) : 0 < limit ↔ 0 < limit.toInt := Int32.lt_iff_toInt_lt

theorem limit_neg_iff (limit : Int32) : limit < 0 ↔ limit.toInt < 0 := Int32.lt_iff_toInt_lt

/-- There is only one list that a limit leaves. -/
theorem Kept.unique {limit : Int32} {found kept kept' : List ElementId}
    (h : Kept limit found kept) (h' : Kept limit found kept') : kept = kept' := by
  -- of two lists of one length at one end of a third neither goes further than the other
  rcases Int.lt_trichotomy limit.toInt 0 with hneg | hzero | hpos
  · obtain ⟨hends, hlength⟩ := h.last ((limit_neg_iff limit).2 hneg)
    obtain ⟨hends', hlength'⟩ := h'.last ((limit_neg_iff limit).2 hneg)
    have hequal : kept.length = kept'.length := hlength.trans hlength'.symm
    have hbetween : kept <:+ kept' :=
      List.suffix_of_suffix_length_le hends hends' (Nat.le_of_eq hequal)
    exact hbetween.eq_of_length hequal
  · have hlimit : limit = 0 := Int32.toInt_inj.1 hzero
    rw [h.all hlimit, h'.all hlimit]
  · obtain ⟨hbegins, hlength⟩ := h.first ((limit_pos_iff limit).2 hpos)
    obtain ⟨hbegins', hlength'⟩ := h'.first ((limit_pos_iff limit).2 hpos)
    have hequal : kept.length = kept'.length := hlength.trans hlength'.symm
    have hbetween : kept <+: kept' :=
      List.prefix_of_prefix_length_le hbegins hbegins' (Nat.le_of_eq hequal)
    exact hbetween.eq_of_length hequal

namespace Setting

theorem kept_limited (limit : Int32) (found : List ElementId) :
    Kept limit found (limited limit found) := by
  constructor
  case all =>
    rintro rfl
    rfl
  case first =>
    intro h
    rw [limit_pos_iff] at h
    rw [limited, if_pos h]
    exact ⟨List.take_prefix _ _, by rw [List.length_take]; omega⟩
  case last =>
    intro h
    rw [limit_neg_iff] at h
    rw [limited, if_neg (by omega), if_pos h]
    exact ⟨List.drop_suffix _ _, by rw [List.length_drop]; omega⟩

/-- Asking for one match where one is the limit changes nothing. -/
theorem limited_query (table : QueryTable) (context : ElementId) (selector : String)
    (limit : Int32) :
    limited limit (table.query context selector (limit ≠ 1)) =
      limited limit (table.found context selector) := by
  rw [QueryTable.query_eq]
  -- only for this limit is the table asked for a single match
  by_cases h : limit = 1
  · subst h
    show ((table.found context selector).take 1).take 1 = (table.found context selector).take 1
    rw [List.take_take, Nat.min_self]
  · rw [if_pos (by simpa using h)]

/-! ### Limits in machine arithmetic -/

/-- How many matches a limit is about, as a machine finds it: negation wraps around. -/
def magnitude (limit : Int32) : UInt32 :=
  (if limit < 0 then -limit else limit).toUInt32

theorem toNat_toUInt32 (n : Int32) : n.toUInt32.toNat = (n.toInt % 0x100000000).toNat := by
  show n.toBitVec.toNat = (n.toBitVec.toInt % 0x100000000).toNat
  have hlt := n.toBitVec.isLt
  rw [BitVec.toInt_eq_toNat_bmod, Int.bmod_def]
  omega

/-- The smallest limit is its own negative, but read without a sign it is the right number. -/
theorem toNat_magnitude (limit : Int32) : (magnitude limit).toNat = limit.toInt.natAbs := by
  have hlow : -0x80000000 ≤ limit.toInt := limit.le_toInt
  have hhigh : limit.toInt < 0x80000000 := limit.toInt_lt
  unfold magnitude
  split
  case isTrue h =>
    rw [limit_neg_iff] at h
    rw [toNat_toUInt32, Int32.toInt_neg, Int.bmod_def]
    omega
  case isFalse h =>
    rw [limit_neg_iff] at h
    rw [toNat_toUInt32]
    omega

/-- Matches are dropped from the front only if there are more than the limit says, so the number
of those to drop does not wrap around. -/
theorem limited_eq_magnitude (limit : Int32) (found : List ElementId) :
    limited limit found =
      if 0 < limit then found.take (magnitude limit).toNat
      else if limit < 0 ∧ (magnitude limit).toNat < found.length then
        found.drop (found.length - (magnitude limit).toNat)
      else found := by
  rw [limited, toNat_magnitude]
  simp only [limit_pos_iff, limit_neg_iff]
  -- the three branches of the program, for a positive, a negative and no limit
  by_cases h : 0 < limit.toInt
  · rw [if_pos h, if_pos h, show limit.toInt.toNat = limit.toInt.natAbs by omega]
  · rw [if_neg h, if_neg h]
    by_cases h' : limit.toInt < 0
    · rw [if_pos h']
      -- with no more matches than the limit says there is nothing to drop either way
      split
      case isTrue => rfl
      case isFalse hfew =>
        rw [Nat.sub_eq_zero_of_le (by omega), List.drop_zero]
    · rw [if_neg h', if_neg (fun hc => h' hc.1)]

example : limited (-2147483648) [⟨10⟩, ⟨11⟩] = [⟨10⟩, ⟨11⟩] := by decide

end Setting

/-! ### Queries -/

section Queries

variable {τ : Type} {q : Selection} (setting : Setting τ) (context : ElementId)

theorem Setting.select_of_empty (h : q.selector = "") :
    setting.select context q = if q.includeSelf then [context] else [] := by
  rw [select, if_pos (String.isEmpty_iff.2 h), List.append_nil]

/-- The answer of a table is cut as if all of it had been asked for. -/
theorem Setting.select_table (table : QueryTable) (h : q.selector ≠ "") :
    ({ setting with host := table.query } : Setting τ).select context q =
      (if q.includeSelf then [context] else []) ++
        limited q.limit (table.found context (setting.hostSelector q.selector)) := by
  rw [select, if_neg (fun hempty => h (String.isEmpty_iff.1 hempty)), limited_query]
  rfl

variable [Quantity τ]

/-- Before its matches a query reports nothing but that there are none. -/
theorem Walk.diagnostics_openQuery (elements : List ElementId) (options : Option (Options τ))
    (w : Walk τ) :
    (w.openQuery q elements options).diagnostics = w.diagnostics ++
      if elements = [] ∧ q.optional = false then [.unresolvableSelector q.display] else [] := by
  -- to hold styles reports nothing
  have hhold : (w.holdStyles (delayOf options)).diagnostics = w.diagnostics := by
    unfold holdStyles
    split <;> rfl
  have hreported : (!q.optional && elements.isEmpty) = true ↔
      elements = [] ∧ q.optional = false := by
    rw [Bool.and_eq_true, Bool.not_eq_true', List.isEmpty_iff, and_comm]
  simp only [openQuery, hreported]
  split
  case isTrue => rw [report, hhold]
  case isFalse => rw [hhold, List.append_nil]

end Queries

/-- A query selects the element itself if it is included, then what its limit leaves of the matches
that the table has for its selector as the host knows it.  For a limit of one the table is asked
for one match, which is the first of all.  A query that selects nothing is reported unless it is
optional. -/
theorem query_selects {τ : Type} [Quantity τ] (table : QueryTable) (setting : Setting τ)
    (q : Selection) (options : Option (Options τ)) (w : Walk τ) :
    let asked := setting.hostSelector q.selector
    let elements := ({ setting with host := table.query } : Setting τ).select w.scope.element q
    (∃ kept, elements = (if q.includeSelf then [w.scope.element] else []) ++ kept ∧
      (q.selector = "" → kept = []) ∧
      (q.selector ≠ "" → Kept q.limit (table.found w.scope.element asked) kept) ∧
      (q.selector ≠ "" → q.limit = 1 →
        kept = table.query w.scope.element asked false ∧
          kept = (table.query w.scope.element asked true).take 1)) ∧
    (w.openQuery q elements options).diagnostics = w.diagnostics ++
      if elements = [] ∧ q.optional = false then [.unresolvableSelector q.display] else [] := by
  intro asked elements
  refine ⟨?_, Walk.diagnostics_openQuery elements options w⟩
  -- without a selector the host is not asked at all
  by_cases hsel : q.selector = ""
  · refine ⟨[], ?_, fun _ => rfl, fun h => absurd hsel h, fun h => absurd hsel h⟩
    rw [List.append_nil]
    exact Setting.select_of_empty _ _ hsel
  · refine ⟨_, Setting.select_table setting w.scope.element table hsel, fun h => absurd h hsel,
      fun _ => Setting.kept_limited _ _, fun _ hone => ?_⟩
    have hfirst : Setting.limited q.limit (table.found w.scope.element asked) =
        (table.found w.scope.element asked).take 1 := by
      rw [hone]
      rfl
    rw [QueryTable.query_eq, QueryTable.query_eq]
    exact ⟨hfirst, hfirst⟩

end Choreography
