/-
Choreography/Proofs/Held.lean

Which values the keyframes of a timeline hold.

What matters to the values is when a property is written, and when a keyframe is finished while
something waits for it (`Moment`); both have a history by the local clock (`Scene.history`).
On a timeline whose clock is not turned back a keyframe holds for every property the value that
had been written last when the keyframe was finished last (`held`), and nothing if it never was.
What it does not hold is backfilled.

So a keyframe shows the last value that was written up to its time if it has been finished since
(`held_of_finished`).  A keyframe that is reached and left while nothing waits is not finished, and
neither is one that the clock leaves by a frame.

Main result: `shows_iff_held`.
-/
import Choreography.Proofs.Delay
import Choreography.Proofs.Finish

namespace Choreography

/-! ### Histories -/

/-- What can matter to the values of keyframes. -/
inductive Moment (τ : Type) where
  /-- A property was written. -/
  | wrote (property : String) (value : StyleValue τ)
  /-- A keyframe was finished while something waited for it. -/
  | finished
  deriving DecidableEq

/-- The value that a property was given. -/
def Moment.value? {τ : Type} (p : String) : Moment τ → Option (StyleValue τ)
  | .wrote property value => if property = p then some value else none
  | .finished => none

/-- What has happened to a timeline, each time with what its clock showed. -/
abbrev History := List (ℚ × Moment ℚ)

/-- The value that a property was given last. -/
def latest (p : String) (history : History) : Option (StyleValue ℚ) :=
  history.reverse.findSome? fun m => m.2.value? p

/-- What happened while the clock showed at most a time. -/
def upTo (t : ℚ) (history : History) : History := history.filter (·.1 ≤ t)

/-- What had happened when the keyframe for a time was finished last. -/
def whenFinished (t : ℚ) (history : History) : History :=
  (history.reverse.dropWhile (· ≠ (t, .finished))).reverse

/-- The value that the keyframe for a time holds. -/
def held (p : String) (t : ℚ) (history : History) : Option (StyleValue ℚ) :=
  latest p (whenFinished t history)

/-- The value with which a property is backfilled on the only timeline of its element. -/
def backfilled (p : String) (history : History) : Option (StyleValue ℚ) :=
  (latest p history).map fun _ => .auto

section History

variable {p : String} {t : ℚ} {history : History}

theorem latest_append (p : String) (before after : History) :
    latest p (before ++ after) = (latest p after).or (latest p before) := by
  simp [latest, List.reverse_append, List.findSome?_append]

theorem latest_finished (p : String) (t : ℚ) (history : History) :
    latest p (history ++ [(t, .finished)]) = latest p history := by
  rw [latest_append]
  rfl

theorem latest_wrote (p property : String) (value : StyleValue ℚ) (t : ℚ) (history : History) :
    latest p (history ++ [(t, .wrote property value)]) =
      if property = p then some value else latest p history := by
  rw [latest_append]
  by_cases h : property = p
  · simp [latest, Moment.value?, h]
  · simp [latest, Moment.value?, h]

/-- What had happened by then does not change until the keyframe is finished again. -/
theorem whenFinished_concat_of_ne {m : ℚ × Moment ℚ} (h : m ≠ (t, .finished))
    (history : History) : whenFinished t (history ++ [m]) = whenFinished t history := by
  rw [whenFinished, List.reverse_append, List.reverse_singleton, List.singleton_append,
    List.dropWhile_cons_of_pos (by simpa using h)]
  rfl

theorem whenFinished_concat_self (t : ℚ) (history : History) :
    whenFinished t (history ++ [(t, .finished)]) = history ++ [(t, .finished)] := by
  rw [whenFinished, List.reverse_append, List.reverse_singleton, List.singleton_append,
    List.dropWhile_cons_of_neg (by simp), List.reverse_cons, List.reverse_reverse]

/-- A keyframe goes on holding what it holds until it is finished again. -/
theorem held_of_ne {m : ℚ × Moment ℚ} (h : m ≠ (t, .finished)) (p : String) (history : History) :
    held p t (history ++ [m]) = held p t history := by
  rw [held, whenFinished_concat_of_ne h, held]

theorem held_finished (p : String) (t : ℚ) (history : History) :
    held p t (history ++ [(t, .finished)]) = latest p history := by
  rw [held, whenFinished_concat_self, latest_finished]

/-- A keyframe that has not been finished holds nothing. -/
theorem held_eq_none (h : (t, .finished) ∉ history) (p : String) : held p t history = none := by
  have hdrop : history.reverse.dropWhile (· ≠ (t, .finished)) = [] := by
    rw [List.dropWhile_eq_nil_iff]
    intro m hm
    refine decide_eq_true fun heq => h ?_
    rw [← heq]
    exact List.mem_reverse.1 hm
  rw [held, whenFinished, hdrop]
  rfl

end History

namespace OrderedMap

/-- Entries that are inserted come before those that are there. -/
theorem get?_insertAll {α : Type} (entries : List (String × α)) (m : OrderedMap String α)
    (h : (entries.map Prod.fst).Nodup) (key : String) :
    (m.insertAll entries).get? key = (entries.lookup key).or (m.get? key) := by
  induction entries generalizing m with
  | nil => rfl
  | cons entry rest ih =>
    obtain ⟨key', value⟩ := entry
    rw [List.map_cons, List.nodup_cons] at h
    show ((m.insert key' value).insertAll rest).get? key = _
    rw [ih _ h.2, get?_insert, List.lookup_cons]
    -- of the entries of one key the last one counts, but there is only one
    by_cases hkey : key = key'
    · subst hkey
      have hnone : rest.lookup key = none := by
        rw [List.lookup_eq_none_iff]
        intro entry hentry
        rw [bne_iff_ne]
        intro hkey
        exact h.1 (List.mem_map.2 ⟨entry, hentry, hkey.symm⟩)
      simp [hnone]
    · simp [hkey, beq_eq_false_iff_ne.2 hkey]

end OrderedMap

/-! ### Timelines and their histories -/

namespace Timeline

/-- The styles on the keyframes of a timeline, each with their time. -/
def shelf (t : Timeline ℚ) : List (ℚ × StyleMap ℚ) := t.keyframes.map fun k => (k.time, k.styles)

theorem map_fst_shelf (t : Timeline ℚ) : t.shelf.map Prod.fst = t.times := by
  simp [shelf, times]

theorem shelf_easePrevious (easing : Option String) (t : Timeline ℚ) :
    (t.easePrevious easing).shelf = t.shelf := by
  unfold easePrevious shelf
  split
  · refine map_modify (fun k => (k.time, k.styles)) ?_ _ _
    exact fun _ => rfl
  · rfl

end Timeline

/-- A timeline that is the only one of its element holds what its history says.  Its clock has
not been turned back. -/
structure Scene.Bears (s : Scene ℚ) (past : History) : Prop where
  own : s.timeline.own = none
  bounds : ∀ x ∈ s.timeline.times, 0 ≤ x ∧ x ≤ s.timeline.duration
  nodup : s.timeline.times.Nodup
  current : s.timeline.times[s.timeline.current]? = some s.timeline.duration
  sorted : past.Pairwise fun m m' => m.1 ≤ m'.1
  clock : ∀ m ∈ past, m.1 ≤ s.timeline.duration
  known : ∀ p, s.shared.get? p = latest p past
  backfill : ∀ p, s.timeline.backfill.get? p = backfilled p past
  pending : ∀ p ∈ s.timeline.pending.keys, s.timeline.pending.get? p = s.shared.get? p
  /-- What the keyframes hold. -/
  shelf : ∀ k ∈ s.timeline.shelf, ∀ p, k.2.get? p = held p k.1 past
  /-- What the current keyframe holds is up to date, as far as nothing waits for it. -/
  here : ∀ k ∈ s.timeline.shelf, k.1 = s.timeline.duration → ∀ p ∉ s.timeline.pending.keys,
    k.2.get? p = none ∨ k.2.get? p = s.shared.get? p

/-- Whether a change is an empty step. -/
def Change.isEmptyStep : Change ℚ → Bool
  | .emptyStep _ => true
  | _ => false

instance Change.Forward.decidable (t : Timeline ℚ) : (c : Change ℚ) → Decidable (c.Forward t)
  | .moveTo time => inferInstanceAs (Decidable (t.duration ≤ time))
  | .delay time => inferInstanceAs (Decidable (0 ≤ time))
  | .ease _ => .isTrue trivial
  | .nextFrame => .isTrue trivial
  | .write .. => .isTrue trivial
  | .emptyStep _ => .isTrue trivial
  | .flush => .isTrue trivial
  | .snapshot => .isTrue trivial

namespace Scene

variable {s s' : Scene ℚ} {past : History}

theorem bears_begin (lineage : Nat) (element : ElementId) (start : ℚ) :
    Bears ⟨.begin lineage element start none, ∅⟩ [] where
  own := rfl
  bounds x hx := by
    obtain rfl := List.mem_singleton.1 hx
    exact ⟨le_rfl, le_rfl⟩
  nodup := List.nodup_singleton _
  current := rfl
  sorted := .nil
  clock := List.forall_mem_nil _
  known _ := rfl
  backfill _ := rfl
  pending := List.forall_mem_nil _
  shelf k hk p := by
    obtain rfl := List.mem_singleton.1 hk
    rfl
  here k hk _ p _ := by
    obtain rfl := List.mem_singleton.1 hk
    exact .inl rfl

/-- The start of a timeline and the easings do not matter. -/
theorem Bears.of_eq (h : s.Bears past) (hown : s'.timeline.own = s.timeline.own)
    (hshelf : s'.timeline.shelf = s.timeline.shelf)
    (hduration : s'.timeline.duration = s.timeline.duration)
    (hcurrent : s'.timeline.current = s.timeline.current)
    (hpending : s'.timeline.pending = s.timeline.pending)
    (hbackfill : s'.timeline.backfill = s.timeline.backfill) (hshared : s'.shared = s.shared) :
    s'.Bears past := by
  -- the times are read off the shelf
  have htimes : s'.timeline.times = s.timeline.times := by
    rw [← Timeline.map_fst_shelf, hshelf, Timeline.map_fst_shelf]
  constructor
  · rw [hown, h.own]
  · rw [htimes, hduration]
    exact h.bounds
  · rw [htimes]
    exact h.nodup
  · rw [htimes, hcurrent, hduration]
    exact h.current
  · exact h.sorted
  · rw [hduration]
    exact h.clock
  · rw [hshared]
    exact h.known
  · rw [hbackfill]
    exact h.backfill
  · rw [hpending, hshared]
    exact h.pending
  · rw [hshelf]
    exact h.shelf
  · rw [hshelf, hduration, hpending, hshared]
    exact h.here

theorem Bears.clock_concat (h : s.Bears past) (m : Moment ℚ) :
    ∀ m' ∈ past ++ [(s.timeline.duration, m)], m'.1 ≤ s.timeline.duration := by
  intro m' hm'
  rcases List.mem_append.1 hm' with hm' | hm'
  · exact h.clock m' hm'
  · exact (congrArg Prod.fst (List.mem_singleton.1 hm')).le

theorem Bears.sorted_concat (h : s.Bears past) (m : Moment ℚ) :
    (past ++ [(s.timeline.duration, m)]).Pairwise fun m m' => m.1 ≤ m'.1 := by
  rw [List.pairwise_append]
  refine ⟨h.sorted, List.pairwise_singleton _ _, fun m' hm' m'' hm'' => ?_⟩
  rw [List.mem_singleton.1 hm'']
  exact h.clock m' hm'

theorem Bears.easePrevious (h : s.Bears past) (easing : Option String) :
    (s.onTimeline (Timeline.easePrevious easing)).Bears past := by
  refine h.of_eq ?_ (Timeline.shelf_easePrevious easing s.timeline) ?_ ?_ ?_ ?_ rfl
  all_goals
    show _ = _
    simp only [onTimeline, Timeline.easePrevious]
    split <;> rfl

/-- A value is queued once more. -/
theorem Bears.requeue (h : s.Bears past) {property : String} {value : StyleValue ℚ}
    (hvalue : s.shared.get? property = some value) :
    ((s.queue property value).note property value).Bears past := by
  -- nothing new becomes known, so the history is the same
  have hshared : ∀ p, (s.shared.insert property value).get? p = s.shared.get? p := by
    intro p
    rw [OrderedMap.get?_insert]
    split
    · rename_i hp
      rw [hp, hvalue]
    · rfl
  constructor
  · exact congrArg (Option.map _) h.own
  · exact h.bounds
  · exact h.nodup
  · exact h.current
  · exact h.sorted
  · exact h.clock
  · exact fun p => (hshared p).trans (h.known p)
  · exact h.backfill
  · intro p hp
    show (s.timeline.pending.insert property value).get? p = (s.shared.insert property value).get? p
    rw [hshared, OrderedMap.get?_insert]
    split
    · rename_i hp
      rw [hp, hvalue]
    · rename_i hne
      exact h.pending p ((OrderedMap.mem_keys_insert.1 hp).resolve_left hne)
  · exact h.shelf
  · intro k hk hnow p hp
    show _ ∨ _ = (s.shared.insert property value).get? p
    rw [hshared]
    exact h.here k hk hnow p fun hmem => hp (OrderedMap.mem_keys_insert.2 (.inr hmem))

/-- On the only timeline of its element, all that is known is shared. -/
theorem Bears.known_eq (h : s.Bears past) : s.known = s.shared := by
  rw [Scene.known, h.own]
  rfl

/-- A snapshot writes nothing new. -/
theorem Bears.snapshot (h : s.Bears past) : s.snapshot.Bears past := by
  refine snapshot_induct (P := (Bears · past)) h fun u hu entry hentry => hu.requeue ?_
  -- the entry is what its property was last written with, and this stays so while others
  -- are queued
  rw [h.known_eq] at hentry
  rw [hu.known, ← h.known]
  exact OrderedMap.get?_of_mem hentry

/-- A property is backfilled if it is not known to the branch, with what is shared. -/
theorem backfill_write (s : Scene ℚ) (property : String) (value : StyleValue ℚ) :
    (s.write property value).timeline.backfill =
      if s.known.contains property then s.timeline.backfill
      else s.timeline.backfill.insert property ((s.shared.get? property).getD .auto) := by
  unfold Scene.write Scene.backfill
  rw [known_queue]
  split <;> rfl

/-- A property is backfilled from when it is written first. -/
theorem Bears.backfill_write (h : s.Bears past) (property : String) (value : StyleValue ℚ)
    (p : String) : (s.write property value).timeline.backfill.get? p =
      backfilled p (past ++ [(s.timeline.duration, .wrote property value)]) := by
  rw [Scene.backfill_write, h.known_eq, backfilled, latest_wrote]
  -- it was written before, or it is new and gets `auto`
  cases hvalue : s.shared.get? property with
  | none =>
    have hnew : s.shared.contains property = false := by
      rw [← OrderedMap.get?_isSome, hvalue]
      rfl
    rw [if_neg (by simp [hnew]), OrderedMap.get?_insert, h.backfill]
    by_cases hp : p = property
    · simp [hp]
    · simp [hp, Ne.symm hp, backfilled]
  | some old =>
    have hold : s.shared.contains property = true := by
      rw [← OrderedMap.get?_isSome, hvalue]
      rfl
    rw [if_pos hold, h.backfill, backfilled, ← h.known]
    by_cases hp : p = property
    · simp [hp, hvalue]
    · simp [Ne.symm hp]

/-- A write is a moment of its own, and what was finished stays as it was. -/
theorem Bears.write (h : s.Bears past) (property : String) (value : StyleValue ℚ) :
    (s.write property value).Bears
      (past ++ [(s.timeline.duration, .wrote property value)]) := by
  have hskeleton := s.skeleton_write property value
  have htimes : (s.write property value).timeline.times = s.timeline.times :=
    congrArg Skeleton.times hskeleton
  have hduration : (s.write property value).timeline.duration = s.timeline.duration :=
    congrArg Skeleton.duration hskeleton
  have hcurrent : (s.write property value).timeline.current = s.timeline.current :=
    congrArg Skeleton.current hskeleton
  have hkeyframes : (s.write property value).timeline.shelf = s.timeline.shelf := by
    rw [Timeline.shelf, keyframes_write]
    rfl
  have hshared : (s.write property value).shared = s.shared.insert property value := by
    unfold Scene.write Scene.backfill
    split <;> rfl
  constructor
  · have hfirst : (s.write property value).timeline.own.isNone = s.timeline.own.isNone :=
      congrArg Skeleton.isFirst hskeleton
    rw [h.own] at hfirst
    exact Option.isNone_iff_eq_none.1 hfirst
  · rw [htimes, hduration]
    exact h.bounds
  · rw [htimes]
    exact h.nodup
  · rw [htimes, hcurrent, hduration]
    exact h.current
  · exact h.sorted_concat _
  · rw [hduration]
    exact h.clock_concat _
  · intro p
    rw [hshared, OrderedMap.get?_insert, latest_wrote, h.known]
    exact if_congr eq_comm rfl rfl
  · exact h.backfill_write property value
  · intro p hp
    rw [pending_write, OrderedMap.mem_keys_insert] at hp
    rw [pending_write, hshared, OrderedMap.get?_insert, OrderedMap.get?_insert]
    split
    · rfl
    · rename_i hne
      exact h.pending p (hp.resolve_left hne)
  · intro k hk p
    rw [held_of_ne (by simp)]
    exact h.shelf k (hkeyframes ▸ hk) p
  · -- the property of the write waits; for the others the keyframe is as up to date as before
    intro k hk hnow p hp
    rw [pending_write, OrderedMap.mem_keys_insert, not_or] at hp
    rw [hshared, OrderedMap.get?_insert, if_neg hp.1]
    exact h.here k (hkeyframes ▸ hk) (hnow.trans hduration) p hp.2

/-- If something waits, it is put on the current keyframe with all that is known. -/
theorem flush_eq (hpending : s.timeline.pending.isEmpty = false) :
    s.flush = s.onTimeline fun t =>
      { t.modifyCurrent fun k =>
          { k with styles := (k.styles.insertAll t.pending.entries).fill s.known.entries }
        with pending := ∅ } := by
  unfold Scene.flush
  rw [hpending]
  rfl

/-- When the current keyframe is finished, what waits comes before its styles, and what is known
comes after them.  The other keyframes stay. -/
theorem mem_shelf_flush (hnodup : s.timeline.times.Nodup)
    (hcurrent : s.timeline.times[s.timeline.current]? = some s.timeline.duration)
    (hpending : s.timeline.pending.isEmpty = false) {k : ℚ × StyleMap ℚ}
    (hk : k ∈ s.flush.timeline.shelf) :
    (∃ styles, (s.timeline.duration, styles) ∈ s.timeline.shelf ∧ k = (s.timeline.duration,
        (styles.insertAll s.timeline.pending.entries).fill s.known.entries)) ∨
      (k.1 ≠ s.timeline.duration ∧ k ∈ s.timeline.shelf) := by
  rw [flush_eq hpending] at hk
  obtain ⟨k', hk', rfl⟩ := List.mem_map.1 hk
  obtain ⟨i, hi⟩ := List.mem_iff_getElem?.1 hk'
  change (s.timeline.keyframes.modify s.timeline.current _)[i]? = some k' at hi
  rw [List.getElem?_modify, Option.map_eq_map, Option.map_eq_some_iff] at hi
  obtain ⟨k₀, hk₀, rfl⟩ := hi
  have htime : s.timeline.times[i]? = some k₀.time := by
    rw [Timeline.times, List.getElem?_map, hk₀]
    rfl
  have hmem : (k₀.time, k₀.styles) ∈ s.timeline.shelf :=
    List.mem_map_of_mem (List.mem_of_getElem? hk₀)
  -- the keyframe is the current one, or it has another time, for times are distinct
  by_cases hi : s.timeline.current = i
  · left
    rw [← hi, hcurrent] at htime
    have hnow := Option.some.inj htime
    simp only [if_pos hi]
    exact ⟨k₀.styles, hnow ▸ hmem, Prod.ext hnow.symm rfl⟩
  · right
    simp only [if_neg hi]
    refine ⟨fun hnow => hi ?_, hmem⟩
    have hlt := (List.getElem?_eq_some_iff.1 hcurrent).1
    exact (List.getElem?_inj hlt hnodup).1 (hcurrent.trans (hnow ▸ htime.symm))

/-- The current keyframe gets all that is known when it is finished. -/
theorem Bears.get?_finished (h : s.Bears past) {styles : StyleMap ℚ}
    (hstyles : (s.timeline.duration, styles) ∈ s.timeline.shelf) (p : String) :
    ((styles.insertAll s.timeline.pending.entries).fill s.known.entries).get? p =
      s.shared.get? p := by
  rw [OrderedMap.get?_fill, OrderedMap.get?_insertAll _ _ s.timeline.pending.nodup,
    ← OrderedMap.get?_eq_lookup, ← OrderedMap.get?_eq_lookup, h.known_eq]
  -- what waits is what was written last; what does not wait is up to date, or it is filled in
  by_cases hp : p ∈ s.timeline.pending.keys
  · obtain ⟨value, hvalue⟩ : ∃ value, s.timeline.pending.get? p = some value := by
      rw [← Option.isSome_iff_exists, OrderedMap.get?_isSome]
      exact OrderedMap.contains_iff_mem_keys.2 hp
    rw [← h.pending p hp, hvalue, Option.some_or, Option.some_or]
  · rw [OrderedMap.get?_eq_none_iff.2 hp, Option.none_or]
    rcases h.here _ hstyles rfl p hp with hnone | hshared
    · rw [show styles.get? p = none from hnone, Option.none_or]
    · rw [show styles.get? p = s.shared.get? p from hshared, Option.or_self]

/-- After a flush the current keyframe shows all that is known, and the others what they did. -/
theorem Bears.shelf_flush (h : s.Bears past) (hpending : s.timeline.pending.isEmpty = false)
    {k : ℚ × StyleMap ℚ} (hk : k ∈ s.flush.timeline.shelf) :
    (k.1 = s.timeline.duration ∧ ∀ p, k.2.get? p = s.shared.get? p) ∨
      (k.1 ≠ s.timeline.duration ∧ k ∈ s.timeline.shelf) := by
  rcases mem_shelf_flush h.nodup h.current hpending hk with ⟨styles, hstyles, rfl⟩ | hother
  · exact .inl ⟨rfl, h.get?_finished hstyles⟩
  · exact .inr hother

/-- To finish a keyframe is a moment of its own. -/
theorem Bears.flush (h : s.Bears past) (hpending : s.timeline.pending.isEmpty = false) :
    s.flush.Bears (past ++ [(s.timeline.duration, .finished)]) := by
  have htimes : s.flush.timeline.times = s.timeline.times :=
    congrArg Skeleton.times s.skeleton_flush
  have hflush := flush_eq hpending
  have hshared : s.flush.shared = s.shared := by
    rw [hflush]
    rfl
  constructor
  · rw [hflush]
    exact h.own
  · rw [htimes, hflush]
    exact h.bounds
  · rw [htimes]
    exact h.nodup
  · rw [htimes, hflush]
    exact h.current
  · exact h.sorted_concat _
  · rw [hflush]
    exact h.clock_concat _
  · intro p
    rw [hshared, latest_finished, h.known]
  · intro p
    rw [backfill_flush, backfilled, latest_finished, h.backfill, backfilled]
  · exact fun p hp => absurd hp mem_pending_flush
  · intro k hk p
    rcases h.shelf_flush hpending hk with ⟨hnow, hstyles⟩ | ⟨hnow, hk⟩
    · rw [hstyles, hnow, held_finished, h.known]
    · rw [held_of_ne (by simpa using Ne.symm hnow), h.shelf k hk]
  · intro k hk hnow p _
    rw [hshared]
    rcases h.shelf_flush hpending hk with ⟨-, hstyles⟩ | ⟨hne, -⟩
    · exact .inr (hstyles p)
    · refine absurd (hnow.trans ?_) hne
      rw [hflush]
      rfl

/-- The timeline with an empty keyframe for a time, to which the clock goes on. -/
theorem Bears.append (h : s.Bears past) {time : ℚ} (hlater : s.timeline.duration < time)
    (previous : Option Nat) :
    (s.onTimeline fun t =>
      { t with
        duration := time
        previous := previous
        current := t.keyframes.length
        keyframes := t.keyframes ++ [⟨time, none, ∅⟩] }).Bears past := by
  let t : Timeline ℚ :=
    { s.timeline with
      duration := time
      previous := previous
      current := s.timeline.keyframes.length
      keyframes := s.timeline.keyframes ++ [⟨time, none, ∅⟩] }
  have htimes : t.times = s.timeline.times ++ [time] := List.map_append
  have hshelf : t.shelf = s.timeline.shelf ++ [(time, ∅)] := List.map_append
  -- all keyframes so far are before the new one
  have hearlier : ∀ x ∈ s.timeline.times, 0 ≤ x ∧ x < time := fun x hx =>
    ⟨(h.bounds x hx).1, (h.bounds x hx).2.trans_lt hlater⟩
  have hzero := (hearlier _ (List.mem_of_getElem? h.current)).1
  constructor
  · exact h.own
  · show ∀ x ∈ t.times, 0 ≤ x ∧ x ≤ time
    rw [htimes]
    intro x hx
    rcases List.mem_append.1 hx with hx | hx
    · exact ⟨(hearlier x hx).1, (hearlier x hx).2.le⟩
    · obtain rfl := List.mem_singleton.1 hx
      exact ⟨hzero.trans hlater.le, le_rfl⟩
  · show t.times.Nodup
    rw [htimes, List.nodup_append]
    refine ⟨h.nodup, List.nodup_singleton _, fun x hx y hy => ?_⟩
    rw [List.mem_singleton.1 hy]
    exact (hearlier x hx).2.ne
  · show t.times[s.timeline.keyframes.length]? = some time
    rw [htimes, ← Timeline.length_times, List.getElem?_concat_length]
  · exact h.sorted
  · exact fun m hm => (h.clock m hm).trans hlater.le
  · exact h.known
  · exact h.backfill
  · exact h.pending
  · show ∀ k ∈ t.shelf, ∀ p, k.2.get? p = held p k.1 past
    rw [hshelf]
    intro k hk p
    rcases List.mem_append.1 hk with hk | hk
    · exact h.shelf k hk p
    · -- nothing has happened at that time yet
      rw [List.mem_singleton.1 hk]
      refine (held_eq_none (fun hmem => ?_) p).symm
      exact absurd (h.clock _ hmem) (not_le.2 hlater)
  · show ∀ k ∈ t.shelf, k.1 = time → ∀ p ∉ s.timeline.pending.keys, _
    rw [hshelf]
    intro k hk hnow p hp
    rcases List.mem_append.1 hk with hk | hk
    · have htime : k.1 ∈ s.timeline.times := by
        rw [← Timeline.map_fst_shelf]
        exact List.mem_map_of_mem hk
      exact absurd hnow (hearlier _ htime).2.ne
    · rw [List.mem_singleton.1 hk]
      exact .inl rfl

/-- The clock goes on, to a keyframe that is new unless it stays where it is. -/
theorem Bears.load (h : s.Bears past) {time : ℚ} (ht : s.timeline.duration ≤ time) :
    (s.onTimeline fun t => { t with duration := time }.loadKeyframe).Bears past := by
  simp only [Timeline.loadKeyframe, onTimeline]
  split
  · rename_i i hi
    -- there is a keyframe for the time already, so the clock stays where it is
    obtain ⟨hlt, htime, -⟩ := List.findIdx?_eq_some_iff_getElem.1 hi
    have hindex : s.timeline.times[i]? = some time := by
      rw [Timeline.times, List.getElem?_map, List.getElem?_eq_getElem hlt]
      exact congrArg some (eq_of_beq htime)
    obtain rfl : time = s.timeline.duration :=
      le_antisymm (h.bounds time (List.mem_of_getElem? hindex)).2 ht
    exact ⟨h.own, h.bounds, h.nodup, hindex, h.sorted, h.clock, h.known, h.backfill, h.pending,
      h.shelf, h.here⟩
  · rename_i hi
    have hnew : time ∉ s.timeline.times := by
      intro hmem
      obtain ⟨k, hk, hkt⟩ := List.mem_map.1 hmem
      have hne := List.findIdx?_eq_none_iff.1 hi k hk
      simp [hkt] at hne
    have hlater : s.timeline.duration < time := by
      refine lt_of_le_of_ne ht fun heq => hnew (heq ▸ ?_)
      exact List.mem_of_getElem? h.current
    exact h.append hlater _

/-! ### Runs -/

/-- The finishing of a keyframe, if something waits for it. -/
def finishing (s : Scene ℚ) : History :=
  if s.timeline.pending.isEmpty then [] else [(s.timeline.duration, .finished)]

/-- What happens in a change.  A snapshot only writes what has been written last. -/
def moments (s : Scene ℚ) : Change ℚ → History
  | .write entries _ params => (flatten s.shared entries).entries.map fun entry =>
    (s.timeline.duration, .wrote entry.1 (entry.2.interpolate params).1)
  | .flush => s.finishing
  | .moveTo _ => s.finishing
  | .delay _ => if s.timeline.duration != 0 || s.timeline.hasLoneStyle then s.finishing else []
  | .ease _ => []
  | .nextFrame => []
  | .emptyStep _ => []
  | .snapshot => []

/-- What several changes make of a scene. -/
def changeAll (s : Scene ℚ) (cs : List (Change ℚ)) : Scene ℚ := cs.foldl change s

/-- What happens in several changes. -/
def history : Scene ℚ → List (Change ℚ) → History
  | _, [] => []
  | s, c :: cs => s.moments c ++ (s.change c).history cs

/-- The clock is not turned back, and no step is empty. -/
def Steady : Scene ℚ → List (Change ℚ) → Prop
  | _, [] => True
  | s, c :: cs => c.Forward s.timeline ∧ c.isEmptyStep = false ∧ (s.change c).Steady cs

instance Steady.decidable : (s : Scene ℚ) → (cs : List (Change ℚ)) → Decidable (s.Steady cs)
  | _, [] => .isTrue trivial
  | s, c :: cs =>
    have := Steady.decidable (s.change c) cs
    inferInstanceAs (Decidable (c.Forward s.timeline ∧ c.isEmptyStep = false ∧ _))

theorem history_append (s : Scene ℚ) (cs cs' : List (Change ℚ)) :
    s.history (cs ++ cs') = s.history cs ++ (s.changeAll cs).history cs' := by
  induction cs generalizing s with
  | nil => rfl
  | cons c cs ih =>
    rw [List.cons_append, history, history, ih, List.append_assoc]
    rfl

/-- A flush is a moment if something waits, and else it does nothing. -/
theorem Bears.finish (h : s.Bears past) : s.flush.Bears (past ++ s.finishing) := by
  unfold finishing
  cases hpending : s.timeline.pending.isEmpty with
  | false => exact h.flush hpending
  | true =>
    have hflush : s.flush = s := by
      unfold Scene.flush
      rw [if_pos hpending]
    rw [hflush, if_pos rfl, List.append_nil]
    exact h

/-- To move on is to flush, and to load a keyframe. -/
theorem Bears.forwardTo (h : s.Bears past) {time : ℚ} (ht : s.timeline.duration ≤ time) :
    (s.forwardTo time).Bears (past ++ s.finishing) := by
  have hduration : s.flush.timeline.duration = s.timeline.duration :=
    congrArg Skeleton.duration s.skeleton_flush
  exact h.finish.load (hduration.trans_le ht)

/-- Many writes are many moments at one time. -/
theorem Bears.writeAll (h : s.Bears past) (params : Params ℚ)
    (styles : List (String × StyleValue ℚ)) :
    (s.writeAll params styles).1.Bears (past ++ styles.map fun entry =>
      (s.timeline.duration, .wrote entry.1 (entry.2.interpolate params).1)) := by
  induction styles generalizing s past with
  | nil => simpa [Scene.writeAll] using h
  | cons entry rest ih =>
    have hwrite := h.write entry.1 (entry.2.interpolate params).1
    have hduration : (s.write entry.1 (entry.2.interpolate params).1).timeline.duration =
        s.timeline.duration := congrArg Skeleton.duration (s.skeleton_write _ _)
    have hrest := ih hwrite
    -- no write moves the clock, so they share their time
    rw [hduration, List.append_assoc] at hrest
    exact hrest

/-- **A timeline holds what its history says after every change that does not turn the clock
back.** -/
theorem Bears.change (h : s.Bears past) {c : Change ℚ} (hc : c.Forward s.timeline)
    (hempty : c.isEmptyStep = false) :
    (s.change c).Bears (past ++ s.moments c) := by
  -- each change is one or more moments, or none
  cases c with
  | ease easing =>
    rw [moments, List.append_nil]
    exact h.of_eq rfl rfl rfl rfl rfl rfl rfl
  | nextFrame =>
    rw [moments, List.append_nil]
    exact h.load (le_add_of_nonneg_right (zero_le_one : (0 : ℚ) ≤ 1))
  | moveTo time => exact h.forwardTo hc
  | delay time =>
    have hforward := h.forwardTo (le_add_of_nonneg_right (a := s.timeline.duration) hc)
    simp only [Scene.change, delayNextStep_eq, moments]
    split
    · split
      · exact hforward.snapshot
      · exact hforward
    · rw [List.append_nil]
      exact h.of_eq rfl rfl rfl rfl rfl rfl rfl
  | write entries easing params =>
    have hease := (h.easePrevious easing).writeAll params (flatten s.shared entries).entries
    have hduration : (s.timeline.easePrevious easing).duration = s.timeline.duration :=
      congrArg Skeleton.duration (Timeline.skeleton_easePrevious easing s.timeline)
    rw [show (s.onTimeline (Timeline.easePrevious easing)).timeline.duration =
      s.timeline.duration from hduration] at hease
    exact hease
  | emptyStep easing => cases hempty
  | flush => exact h.finish
  | snapshot =>
    rw [moments, List.append_nil]
    exact h.snapshot

/-- And after a run of them. -/
theorem Bears.changeAll {cs : List (Change ℚ)} (h : s.Bears past) (hcs : s.Steady cs) :
    (s.changeAll cs).Bears (past ++ s.history cs) := by
  induction cs generalizing s past with
  | nil =>
    rw [Scene.history, List.append_nil]
    exact h
  | cons c cs ih =>
    obtain ⟨hc, hempty, hrest⟩ := hcs
    rw [Scene.history, ← List.append_assoc]
    exact ih (h.change hc hempty) hrest

/-- The local time of a keyframe of an instruction is its part of the duration. -/
theorem Bears.exists_shelf (h : s.Bears past) {k : Keyframe ℚ}
    (hk : k ∈ s.toInstruction.keyframes) :
    ∃ x ∈ s.flush.timeline.shelf, x.1 = k.offset * s.toInstruction.duration ∧
      ∀ p, k.styles.get? p = (x.2.get? p).or (s.flush.timeline.backfill.get? p) := by
  -- before they are sorted, keyframes are those of the shelf with parts of the duration
  have hfraction : ∀ k ∈ s.fractions,
      ∃ x ∈ s.flush.timeline.shelf, x.1 = k.offset * s.toInstruction.duration ∧
        ∀ p, k.styles.get? p = (x.2.get? p).or (s.flush.timeline.backfill.get? p) := by
    intro k hk
    obtain ⟨k', hk', rfl⟩ := List.mem_map.1 hk
    refine ⟨(k'.time, k'.styles), List.mem_map_of_mem hk', ?_, fun p => ?_⟩
    · obtain ⟨hge, hle⟩ := h.finish.bounds k'.time (List.mem_map_of_mem hk')
      exact (fraction_mul hge hle).symm
    · rw [OrderedMap.get?_eq_lookup k'.styles]
      exact OrderedMap.get?_insertAll _ _ k'.styles.nodup p
  have hsorted : ∀ k ∈ sortByOffset s.fractions, k ∈ s.fractions :=
    fun k => (perm_sortByOffset _).mem_iff.1
  rw [keyframes_toInstruction] at hk
  split at hk
  · rename_i hinstant
    rcases List.mem_append.1 hk with hk | hk
    · exact hfraction k (hsorted k hk)
    · -- the second keyframe of an instant is the first one once more
      obtain ⟨k', hk', rfl⟩ := List.mem_map.1 hk
      obtain ⟨x, hx, htime, hstyles⟩ := hfraction k' (hsorted k' (List.mem_of_mem_take hk'))
      have hzero : s.toInstruction.duration = 0 :=
        eq_of_beq (Bool.and_eq_true_iff.1 hinstant).2
      exact ⟨x, hx, by rw [htime, hzero, mul_zero, mul_zero], hstyles⟩
  · exact hfraction k (hsorted k hk)

end Scene

/-! ### What is shown -/

section History

variable {p : String} {t : ℚ} {past : History}

theorem latest_eq_none : latest p past = none ↔ ∀ m ∈ past, m.2.value? p = none := by
  simp [latest]

theorem upTo_eq_self (h : ∀ m ∈ past, m.1 ≤ t) : upTo t past = past :=
  List.filter_eq_self.2 fun m hm => decide_eq_true (h m hm)

theorem le_of_sorted_concat {last : Moment ℚ}
    (hsorted : (past ++ [(t, last)]).Pairwise fun m m' => m.1 ≤ m'.1) :
    ∀ m ∈ past ++ [(t, last)], m.1 ≤ t := by
  intro m hm
  rcases List.mem_append.1 hm with hm | hm
  · exact (List.pairwise_append.1 hsorted).2.2 m hm _ (List.mem_singleton_self _)
  · exact (congrArg Prod.fst (List.mem_singleton.1 hm)).le

/-- What had happened when a keyframe was finished last had happened by its time. -/
theorem whenFinished_subset (hsorted : past.Pairwise fun m m' => m.1 ≤ m'.1) :
    ∀ m ∈ whenFinished t past, m ∈ upTo t past := by
  -- from the end: the last moment is the finishing that is looked for, or it is passed over
  induction past using List.reverseRecOn with
  | nil => exact List.forall_mem_nil _
  | append_singleton past last ih =>
    by_cases hlast : last = (t, .finished)
    · subst hlast
      rw [whenFinished_concat_self, upTo_eq_self (le_of_sorted_concat hsorted)]
      exact fun _ hm => hm
    · intro m hm
      rw [whenFinished_concat_of_ne hlast] at hm
      rw [upTo, List.filter_append]
      exact List.mem_append_left _ (ih (List.pairwise_append.1 hsorted).1 m hm)

/-- **A keyframe that has been finished after the last write up to its time is up to date.** -/
theorem held_of_finished {before after : History}
    (hsorted : (before ++ (t, .finished) :: after).Pairwise fun m m' => m.1 ≤ m'.1)
    (hafter : ∀ m ∈ after, m.1 ≤ t → m.2.value? p = none) :
    held p t (before ++ (t, .finished) :: after) =
      latest p (upTo t (before ++ (t, .finished) :: after)) := by
  -- from the end: a later finishing of the keyframe settles it, and any other moment changes
  -- neither side
  induction after using List.reverseRecOn with
  | nil => rw [held_finished, upTo_eq_self (le_of_sorted_concat hsorted), latest_finished]
  | append_singleton after last ih =>
    have hsplit : before ++ (t, Moment.finished) :: (after ++ [last]) =
        (before ++ (t, Moment.finished) :: after) ++ [last] := by simp
    rw [hsplit] at hsorted ⊢
    by_cases hlast : last = (t, .finished)
    · subst hlast
      rw [held_finished, upTo_eq_self (le_of_sorted_concat hsorted), latest_finished]
    · rw [held_of_ne hlast, ih (List.pairwise_append.1 hsorted).1
        fun m hm => hafter m (List.mem_append_left _ hm)]
      have hnone : latest p (upTo t [last]) = none := by
        refine latest_eq_none.2 fun m hm => ?_
        obtain ⟨hm, hle⟩ := List.mem_filter.1 hm
        exact hafter m (List.mem_append_right _ hm) (of_decide_eq_true hle)
      have happend : upTo t (before ++ (t, Moment.finished) :: after ++ [last]) =
          upTo t (before ++ (t, Moment.finished) :: after) ++ upTo t [last] :=
        List.filter_append _ _
      rw [happend, latest_append, hnone, Option.none_or]

end History

/-- **Which values the keyframes of a timeline show.**  It is the value that was written last up
to the time of the keyframe just if that is the one that was known when it was finished last. -/
theorem shows_iff_held (lineage : Nat) (element : ElementId) (start : ℚ) {cs : List (Change ℚ)}
    (hcs : (⟨.begin lineage element start none, ∅⟩ : Scene ℚ).Steady cs) (p : String) :
    let fresh : Scene ℚ := ⟨.begin lineage element start none, ∅⟩
    let history := fresh.history (cs ++ [.flush])
    let shown := (fresh.changeAll cs).toInstruction
    ∀ k ∈ shown.keyframes,
      let t := k.offset * shown.duration
      k.styles.get? p = (held p t history).or (backfilled p history) ∧
        (k.styles.get? p = (latest p (upTo t history)).or (backfilled p history) ↔
          ∀ value, latest p (upTo t history) = some value →
            (held p t history).getD .auto = value) := by
  intro fresh history shown k hk t
  -- the run with a flush at its end, for the instruction is read off a flushed scene
  have hbears : (fresh.changeAll cs).flush.Bears history := by
    have hrun := ((Scene.bears_begin lineage element start).changeAll hcs).finish
    have hhistory : history = [] ++ fresh.history cs ++ (fresh.changeAll cs).finishing := by
      show fresh.history (cs ++ [.flush]) = _
      rw [Scene.history_append]
      simp [Scene.history, Scene.moments]
    rw [hhistory]
    exact hrun
  obtain ⟨x, hx, htime, hstyles⟩ :=
    ((Scene.bears_begin lineage element start).changeAll hcs).exists_shelf hk
  have hheld : k.styles.get? p = (held p t history).or (backfilled p history) := by
    rw [hstyles, hbears.shelf x hx, hbears.backfill, htime]
  refine ⟨hheld, ?_⟩
  rw [hheld]
  -- if nothing was written by then, nothing can be held
  cases hlatest : latest p (upTo t history) with
  | none =>
    have hnone : held p t history = none :=
      latest_eq_none.2 fun m hm =>
        latest_eq_none.1 hlatest m (whenFinished_subset hbears.sorted m hm)
    rw [hnone]
    exact iff_of_true rfl nofun
  | some value =>
    -- the property was written at some time, so it is backfilled
    have hwritten : backfilled p history = some .auto := by
      rw [backfilled]
      cases hever : latest p history with
      | none =>
        have hnever : latest p (upTo t history) = none := latest_eq_none.2 fun m hm =>
          latest_eq_none.1 hever m (List.mem_filter.1 hm).1
        rw [hnever] at hlatest
        cases hlatest
      | some _ => rfl
    rw [hwritten]
    cases hvalue : held p t history with
    | none => simp
    | some value' => simp

/-- A style, an animated step, a delay after which all is kept, and another step. -/
def stages : List (Change ℚ) :=
  [.write [.values (.ofList [("a", .literal (.number 1)), ("b", .literal (.number 5))])] none ∅,
    .moveTo 100, .write [.values (.ofList [("a", .literal (.number 2))])] (some "ease") ∅, .flush,
    .delay 50, .snapshot, .moveTo 200, .write [.values (.ofList [("c", .preSnapshot)])] none ∅]

/-- All of its keyframes are finished when they have to be. -/
theorem shows_iff_held_stages :
    let fresh : Scene ℚ := ⟨.begin 0 ⟨1⟩ 0 none, ∅⟩
    let history := fresh.history (stages ++ [.flush])
    let shown := (fresh.changeAll stages).toInstruction
    fresh.Steady stages ∧ ∀ p ∈ ["a", "b", "c"], ∀ k ∈ shown.keyframes,
      k.styles.get? p =
        (latest p (upTo (k.offset * shown.duration) history)).or (backfilled p history) := by
  intro fresh history shown
  have hsteady : fresh.Steady stages := by decide +kernel
  refine ⟨hsteady, fun p hp k hk => ?_⟩
  have hiff := (shows_iff_held 0 ⟨1⟩ 0 hsteady p k hk).2
  refine hiff.2 ?_
  clear hiff
  revert p k
  decide +kernel

/-- A style, and a pause of two parts. -/
def pause : List (Change ℚ) :=
  [.write [.values (.ofList [("a", .literal (.number 1))])] none ∅, .moveTo 100, .moveTo 200]

/-- Nothing is shown of the style between the two. -/
theorem not_shown_pause :
    let fresh : Scene ℚ := ⟨.begin 0 ⟨1⟩ 0 none, ∅⟩
    let history := fresh.history (pause ++ [.flush])
    let shown := (fresh.changeAll pause).toInstruction
    fresh.Steady pause ∧ ¬∀ k ∈ shown.keyframes, k.styles.get? "a" =
      (latest "a" (upTo (k.offset * shown.duration) history)).or (backfilled "a" history) := by
  decide +kernel

end Choreography
