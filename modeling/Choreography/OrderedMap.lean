/-
Choreography/OrderedMap.lean

Finite maps that remember the order in which their keys were first inserted, and
finite sets that do the same.

Inserting a known key replaces its value and keeps its place; a new key goes to
the end.  The keys are distinct by construction (`OrderedMap.nodup`), so a map is
determined by its list of entries (`OrderedMap.ext`), and `entries` is the view
through which every operation is described.
-/

namespace Choreography

/-! ### Entries -/

/-- Gives `key` the value `value` in a list of entries: in its place, or at the end. -/
def insertEntry {κ α : Type} [DecidableEq κ] (key : κ) (value : α) : List (κ × α) → List (κ × α)
  | [] => [(key, value)]
  | entry :: rest =>
    if entry.1 = key then (key, value) :: rest else entry :: insertEntry key value rest

section Entries

variable {κ α : Type} [DecidableEq κ]

/-- A known key keeps its place when it is given another value. -/
theorem keys_insertEntry_of_mem {key : κ} (value : α) {entries : List (κ × α)}
    (h : key ∈ entries.map Prod.fst) :
    (insertEntry key value entries).map Prod.fst = entries.map Prod.fst := by
  induction entries with
  | nil => simp at h
  | cons entry rest ih =>
    by_cases hk : entry.1 = key
    · simp [insertEntry, hk]
    · have hr : key ∈ rest.map Prod.fst := by
        rcases List.mem_cons.1 h with h | h
        · exact absurd h.symm hk
        · exact h
      simp [insertEntry, hk, ih hr]

theorem insertEntry_of_notMem {key : κ} (value : α) {entries : List (κ × α)}
    (h : key ∉ entries.map Prod.fst) :
    insertEntry key value entries = entries ++ [(key, value)] := by
  induction entries with
  | nil => rfl
  | cons entry rest ih =>
    have hk : entry.1 ≠ key := fun e => h (by simp [e])
    have hr : key ∉ rest.map Prod.fst := fun e => h (List.mem_cons_of_mem _ e)
    simp [insertEntry, hk, ih hr]

/-- Either way the keys stay distinct. -/
theorem nodup_keys_insertEntry (key : κ) (value : α) {entries : List (κ × α)}
    (h : (entries.map Prod.fst).Nodup) :
    ((insertEntry key value entries).map Prod.fst).Nodup := by
  by_cases hk : key ∈ entries.map Prod.fst
  · rw [keys_insertEntry_of_mem value hk]
    exact h
  · rw [insertEntry_of_notMem value hk, List.map_append, List.nodup_append]
    refine ⟨h, by simp, ?_⟩
    intro a ha b hb
    simp only [List.map_cons, List.map_nil, List.mem_singleton] at hb
    -- the key at the end is the new one, which was not among the others
    rintro rfl
    exact hk (hb ▸ ha)

end Entries

/-! ### Maps -/

/-- A finite map that remembers the order of insertion. -/
@[ext] structure OrderedMap (κ α : Type) where
  entries : List (κ × α)
  nodup : (entries.map Prod.fst).Nodup

namespace OrderedMap

variable {κ α β : Type}

instance : EmptyCollection (OrderedMap κ α) := ⟨⟨[], List.nodup_nil⟩⟩

instance : Inhabited (OrderedMap κ α) := ⟨∅⟩

/-- The keys in order. -/
def keys (m : OrderedMap κ α) : List κ := m.entries.map Prod.fst

/-- Whether there is no entry. -/
def isEmpty (m : OrderedMap κ α) : Bool := m.entries.isEmpty

/-- Keeps the entries whose key satisfies `p`. -/
def filterKeys (p : κ → Bool) (m : OrderedMap κ α) : OrderedMap κ α where
  entries := m.entries.filter fun entry => p entry.1
  nodup := by
    refine List.Pairwise.sublist ?_ m.nodup
    exact List.Sublist.map Prod.fst List.filter_sublist

/-- Replaces the values. -/
def mapEntries (f : κ → α → β) (m : OrderedMap κ α) : OrderedMap κ β where
  entries := m.entries.map fun entry => (entry.1, f entry.1 entry.2)
  nodup := by
    rw [List.map_map]
    exact m.nodup

@[simp] theorem entries_empty : (∅ : OrderedMap κ α).entries = [] := rfl

@[simp] theorem keys_empty : (∅ : OrderedMap κ α).keys = [] := rfl

/-- The keys stay, in their order. -/
@[simp] theorem keys_mapEntries (f : κ → α → β) (m : OrderedMap κ α) :
    (m.mapEntries f).keys = m.keys := by
  simp [keys, mapEntries]

/-- Nothing is changed by replacing each value by itself. -/
theorem mapEntries_eq_self {f : κ → α → α} (hf : ∀ key value, f key value = value)
    (m : OrderedMap κ α) : m.mapEntries f = m := by
  apply OrderedMap.ext
  simp [mapEntries, hf]

variable [DecidableEq κ]

/-- Gives `key` the value `value`: in its place, or at the end. -/
def insert (m : OrderedMap κ α) (key : κ) (value : α) : OrderedMap κ α :=
  ⟨insertEntry key value m.entries, nodup_keys_insertEntry key value m.nodup⟩

/-- The value of a key. -/
def get? (m : OrderedMap κ α) (key : κ) : Option α :=
  (m.entries.find? fun entry => entry.1 = key).map Prod.snd

/-- Whether a key has a value. -/
def contains (m : OrderedMap κ α) (key : κ) : Bool :=
  m.entries.any fun entry => entry.1 = key

/-- Removes a key and its value. -/
def erase (m : OrderedMap κ α) (key : κ) : OrderedMap κ α :=
  m.filterKeys (· ≠ key)

/-- Inserts entries one after another. -/
def insertAll (m : OrderedMap κ α) (entries : List (κ × α)) : OrderedMap κ α :=
  entries.foldl (fun m entry => m.insert entry.1 entry.2) m

/-- The map of a list of entries: of a repeated key the first place and the last
value count. -/
def ofList (entries : List (κ × α)) : OrderedMap κ α :=
  insertAll ∅ entries

/-- Adds the entries of `n` whose keys `m` lacks. -/
def fill (m : OrderedMap κ α) (entries : List (κ × α)) : OrderedMap κ α :=
  entries.foldl (fun m entry => if m.contains entry.1 then m else m.insert entry.1 entry.2) m

instance [DecidableEq α] : DecidableEq (OrderedMap κ α) := fun m n =>
  decidable_of_iff (m.entries = n.entries) OrderedMap.ext_iff.symm

/-! ### What the operations do to the view -/

theorem contains_iff_mem_keys {m : OrderedMap κ α} {key : κ} :
    m.contains key = true ↔ key ∈ m.keys := by
  simp [contains, keys, List.any_eq_true, List.mem_map]

theorem keys_insert_of_mem {m : OrderedMap κ α} {key : κ} (value : α) (h : key ∈ m.keys) :
    (m.insert key value).keys = m.keys :=
  keys_insertEntry_of_mem value h

/-- A new key goes to the end. -/
theorem entries_insert_of_notMem {m : OrderedMap κ α} {key : κ} (value : α)
    (h : key ∉ m.keys) : (m.insert key value).entries = m.entries ++ [(key, value)] :=
  insertEntry_of_notMem value h

/-- One key is added, unless it is there. -/
theorem mem_keys_insert {m : OrderedMap κ α} {key key' : κ} {value : α} :
    key' ∈ (m.insert key value).keys ↔ key' = key ∨ key' ∈ m.keys := by
  by_cases h : key ∈ m.keys
  · rw [keys_insert_of_mem value h]
    constructor
    · exact Or.inr
    · rintro (rfl | h')
      · exact h
      · exact h'
  · rw [keys, entries_insert_of_notMem value h]
    simp [keys, or_comm]

@[simp] theorem get?_empty (key : κ) : (∅ : OrderedMap κ α).get? key = none := rfl

/-- A key has the value that it was given last. -/
theorem get?_insert (m : OrderedMap κ α) (key key' : κ) (value : α) :
    (m.insert key value).get? key' = if key' = key then some value else m.get? key' := by
  obtain ⟨entries, nodup⟩ := m
  simp only [get?, insert]
  -- the invariant of the map would stand in the way of the induction on its entries
  clear nodup
  induction entries with
  | nil =>
    by_cases h : key = key'
    · simp [insertEntry, h]
    · simp [insertEntry, h, Ne.symm h]
  | cons entry rest ih =>
    -- either the search or the insertion may end at the first entry
    by_cases hk : entry.1 = key
    · by_cases h : key' = key
      · simp [insertEntry, hk, h]
      · simp [insertEntry, hk, h, Ne.symm h]
    · by_cases he : entry.1 = key'
      · have : key' ≠ key := fun e => hk (he.trans e)
        simp [insertEntry, he, this]
      · simpa [insertEntry, hk, he] using ih

theorem get?_eq_lookup (m : OrderedMap κ α) (key : κ) : m.get? key = m.entries.lookup key := by
  obtain ⟨entries, nodup⟩ := m
  simp only [get?]
  clear nodup
  induction entries with
  | nil => rfl
  | cons entry rest ih =>
    obtain ⟨key', value⟩ := entry
    by_cases h : key' = key
    · simp [h]
    · have hb : (key == key') = false := by simpa using Ne.symm h
      simpa [List.lookup_cons, h, hb] using ih

/-- What is looked up is replaced as well. -/
theorem get?_mapEntries (f : κ → α → β) (m : OrderedMap κ α) (key : κ) :
    (m.mapEntries f).get? key = (m.get? key).map (f key) := by
  rw [get?_eq_lookup, get?_eq_lookup]
  simp only [mapEntries]
  induction m.entries with
  | nil => rfl
  | cons entry rest ih =>
    obtain ⟨key', value⟩ := entry
    by_cases h : key = key'
    · subst h
      simp
    · have hb : (key == key') = false := by simpa using h
      simpa [List.lookup_cons, hb] using ih

/-- A value may be replaced before or after it is inserted. -/
theorem mapEntries_insert (f : κ → α → β) (m : OrderedMap κ α) (key : κ) (value : α) :
    (m.insert key value).mapEntries f = (m.mapEntries f).insert key (f key value) := by
  apply OrderedMap.ext
  show (insertEntry key value m.entries).map (fun entry => (entry.1, f entry.1 entry.2)) =
    insertEntry key (f key value) (m.entries.map fun entry => (entry.1, f entry.1 entry.2))
  induction m.entries with
  | nil => rfl
  | cons entry rest ih =>
    by_cases h : entry.1 = key
    · simp [insertEntry, h]
    · simp [insertEntry, h, ih]

/-- A key that is removed has no value, and the others keep theirs. -/
theorem get?_erase (m : OrderedMap κ α) (key key' : κ) :
    (m.erase key).get? key' = if key' = key then none else m.get? key' := by
  obtain ⟨entries, nodup⟩ := m
  simp only [get?, erase, filterKeys]
  clear nodup
  induction entries with
  | nil => simp
  | cons entry rest ih =>
    by_cases hk : entry.1 = key
    · by_cases h : key' = key
      · simp [h]
      · simpa [hk, h, Ne.symm h] using ih
    · by_cases he : entry.1 = key'
      · have : key' ≠ key := fun e => hk (he.trans e)
        simp [he, this]
      · simpa [hk, he] using ih

theorem get?_isSome (m : OrderedMap κ α) (key : κ) :
    (m.get? key).isSome = m.contains key := by
  rw [Bool.eq_iff_iff]
  simp [get?, contains]

/-- No value is found under what is not a key. -/
theorem get?_eq_none_iff {m : OrderedMap κ α} {key : κ} : m.get? key = none ↔ key ∉ m.keys := by
  rw [← contains_iff_mem_keys, ← get?_isSome, Option.not_isSome_iff_eq_none]

/-- An entry is what is looked up under its key. -/
theorem get?_of_mem {m : OrderedMap κ α} {entry : κ × α} (h : entry ∈ m.entries) :
    m.get? entry.1 = some entry.2 := by
  have hfind : m.entries.find? (fun e => decide (e.1 = entry.1)) = some entry ↔ _ :=
    List.find?_eq_some_iff_append
  -- the key is not met before the entry, for keys are distinct
  obtain ⟨pre, post, hsplit⟩ := List.append_of_mem h
  have hnodup := m.nodup
  rw [hsplit, List.map_append, List.map_cons, List.nodup_append] at hnodup
  rw [get?, hfind.2 ⟨by simp, pre, post, hsplit, fun e he => ?_⟩]
  · rfl
  · have hne := hnodup.2.2 e.1 (List.mem_map_of_mem he) entry.1 List.mem_cons_self
    simpa using hne

/-- The entries are what is looked up under the keys. -/
theorem mem_entries_iff {m : OrderedMap κ α} {key : κ} {value : α} :
    (key, value) ∈ m.entries ↔ m.get? key = some value := by
  refine ⟨get?_of_mem, fun h => ?_⟩
  obtain ⟨entry, hentry, rfl⟩ := Option.map_eq_some_iff.1 h
  have hkey : entry.1 = key := by simpa using List.find?_some hentry
  rw [← hkey]
  exact List.mem_of_find?_eq_some hentry

/-- Giving a key the value that it has changes nothing. -/
theorem insert_of_get? {m : OrderedMap κ α} {key : κ} {value : α} (h : m.get? key = some value) :
    m.insert key value = m := by
  have hentries : ∀ entries : List (κ × α),
      (entries.find? fun entry => entry.1 = key).map Prod.snd = some value →
        insertEntry key value entries = entries := by
    intro entries
    induction entries with
    | nil => simp
    | cons entry rest ih =>
      by_cases hkey : entry.1 = key
      · intro hvalue
        have hentry : entry = (key, value) := by
          rw [List.find?_cons_of_pos (by simpa using hkey)] at hvalue
          exact Prod.ext hkey (Option.some.inj hvalue)
        simp [insertEntry, hentry]
      · simpa [insertEntry, hkey] using ih
  exact OrderedMap.ext (hentries m.entries h)

/-- The keys of inserted entries are added to those of the map. -/
theorem mem_keys_insertAll {entries : List (κ × α)} {m : OrderedMap κ α} {key : κ} :
    key ∈ (m.insertAll entries).keys ↔ key ∈ m.keys ∨ key ∈ entries.map Prod.fst := by
  induction entries generalizing m with
  | nil => simp [insertAll]
  | cons entry rest ih =>
    show key ∈ ((m.insert entry.1 entry.2).insertAll rest).keys ↔ _
    rw [ih, mem_keys_insert, List.map_cons, List.mem_cons, or_comm (a := key = entry.1), or_assoc]

theorem mem_keys_ofList {entries : List (κ × α)} {key : κ} :
    key ∈ (ofList entries).keys ↔ key ∈ entries.map Prod.fst := by
  rw [ofList, mem_keys_insertAll]
  simp

theorem mem_keys_fill {entries : List (κ × α)} {m : OrderedMap κ α} {key : κ} :
    key ∈ (m.fill entries).keys ↔ key ∈ m.keys ∨ key ∈ entries.map Prod.fst := by
  induction entries generalizing m with
  | nil => simp [fill]
  | cons entry rest ih =>
    -- a key that is there is passed over, but it is there
    by_cases hc : m.contains entry.1
    · have hm : entry.1 ∈ m.keys := contains_iff_mem_keys.1 hc
      have hstep : m.fill (entry :: rest) = m.fill rest := by simp [fill, hc]
      rw [hstep, ih, List.map_cons, List.mem_cons]
      constructor
      · rintro (h | h)
        · exact .inl h
        · exact .inr (.inr h)
      · rintro (h | rfl | h)
        · exact .inl h
        · exact .inl hm
        · exact .inr h
    · have hstep : m.fill (entry :: rest) = (m.insert entry.1 entry.2).fill rest := by
        simp [fill, hc]
      rw [hstep, ih, mem_keys_insert, List.map_cons, List.mem_cons, or_comm (a := key = entry.1),
        or_assoc]

/-- What is there goes before what is filled in. -/
theorem get?_fill (entries : List (κ × α)) (m : OrderedMap κ α) (key : κ) :
    (m.fill entries).get? key = (m.get? key).or (entries.lookup key) := by
  induction entries generalizing m with
  | nil => simp [fill]
  | cons entry rest ih =>
    obtain ⟨key', value⟩ := entry
    by_cases hc : m.contains key'
    · have hstep : m.fill ((key', value) :: rest) = m.fill rest := by simp [fill, hc]
      rw [hstep, ih]
      by_cases hk : key = key'
      · subst hk
        obtain ⟨v, hv⟩ := Option.isSome_iff_exists.1 ((get?_isSome m key).trans hc)
        simp [hv]
      · have hb : (key == key') = false := by simpa using hk
        simp [List.lookup_cons, hb]
    · have hstep : m.fill ((key', value) :: rest) = (m.insert key' value).fill rest := by
        simp [fill, hc]
      rw [hstep, ih, get?_insert]
      by_cases hk : key = key'
      · subst hk
        have hn : m.get? key = none := by
          rw [← Option.not_isSome_iff_eq_none, get?_isSome]
          exact hc
        simp [hn]
      · have hb : (key == key') = false := by simpa using hk
        simp [List.lookup_cons, hk, hb]

/-- Inserting the entries of a map into the empty one gives the map back. -/
theorem ofList_entries (m : OrderedMap κ α) : ofList m.entries = m := by
  -- with what has been inserted so far as an accumulator
  suffices h : ∀ (rest : List (κ × α)) (acc : OrderedMap κ α),
      ((acc.entries ++ rest).map Prod.fst).Nodup →
        (insertAll acc rest).entries = acc.entries ++ rest by
    apply OrderedMap.ext
    simpa [ofList] using h m.entries ∅ (by simpa using m.nodup)
  intro rest
  induction rest with
  | nil => intro acc _; simp [insertAll]
  | cons entry rest ih =>
    intro acc hacc
    have hnew : entry.1 ∉ acc.keys := by
      intro hmem
      rw [List.map_append, List.nodup_append] at hacc
      exact hacc.2.2 _ hmem _ (by simp) rfl
    have he : (acc.insert entry.1 entry.2).entries = acc.entries ++ [entry] :=
      entries_insert_of_notMem entry.2 hnew
    have := ih (acc.insert entry.1 entry.2) (by simpa [he] using hacc)
    simpa [insertAll, he] using this

end OrderedMap

/-! ### Sets -/

/-- A finite set that remembers the order of insertion. -/
@[ext] structure OrderedSet (κ : Type) where
  toList : List κ
  nodup : toList.Nodup

namespace OrderedSet

variable {κ : Type}

instance : EmptyCollection (OrderedSet κ) := ⟨⟨[], List.nodup_nil⟩⟩

instance : Inhabited (OrderedSet κ) := ⟨∅⟩

instance : Membership κ (OrderedSet κ) := ⟨fun s x => x ∈ s.toList⟩

theorem mem_def {x : κ} {s : OrderedSet κ} : x ∈ s ↔ x ∈ s.toList := Iff.rfl

@[simp] theorem toList_empty : (∅ : OrderedSet κ).toList = [] := rfl

variable [DecidableEq κ]

instance (x : κ) (s : OrderedSet κ) : Decidable (x ∈ s) :=
  inferInstanceAs (Decidable (x ∈ s.toList))

instance : DecidableEq (OrderedSet κ) := fun s t =>
  decidable_of_iff (s.toList = t.toList) OrderedSet.ext_iff.symm

/-- Adds an element at the end, unless it is present. -/
def insert (s : OrderedSet κ) (x : κ) : OrderedSet κ :=
  if h : x ∈ s.toList then s
  else ⟨s.toList ++ [x], by
    rw [List.nodup_append]
    refine ⟨s.nodup, by simp, ?_⟩
    intro a ha b hb
    simp only [List.mem_singleton] at hb
    rintro rfl
    exact h (hb ▸ ha)⟩

/-- The set of a list's elements, each at its first place. -/
def ofList (xs : List κ) : OrderedSet κ := xs.foldl insert ∅

/-- One element is added, unless it is there. -/
theorem mem_insert {x y : κ} {s : OrderedSet κ} : y ∈ s.insert x ↔ y = x ∨ y ∈ s := by
  unfold insert
  split
  · constructor
    · exact Or.inr
    · rintro (rfl | h')
      · assumption
      · exact h'
  · simp [mem_def, or_comm]

theorem mem_ofList {xs : List κ} {x : κ} : x ∈ ofList xs ↔ x ∈ xs := by
  -- for any set to begin with
  have hfold : ∀ s : OrderedSet κ, x ∈ xs.foldl insert s ↔ x ∈ s ∨ x ∈ xs := by
    induction xs with
    | nil => simp
    | cons y ys ih =>
      intro s
      rw [List.foldl_cons, ih, mem_insert, List.mem_cons, or_assoc, or_left_comm]
  rw [ofList, hfold]
  exact or_iff_right List.not_mem_nil

/-- Inserting the elements of a set into the empty one gives the set back. -/
theorem ofList_toList (s : OrderedSet κ) : ofList s.toList = s := by
  -- with the elements inserted so far as an accumulator
  suffices h : ∀ (rest : List κ) (acc : OrderedSet κ),
      (acc.toList ++ rest).Nodup → (rest.foldl insert acc).toList = acc.toList ++ rest by
    apply OrderedSet.ext
    simpa [ofList] using h s.toList ∅ (by simpa using s.nodup)
  intro rest
  induction rest with
  | nil => intro acc _; simp
  | cons x rest ih =>
    intro acc hacc
    have hnew : x ∉ acc.toList := by
      intro hmem
      rw [List.nodup_append] at hacc
      exact hacc.2.2 _ hmem _ (by simp) rfl
    have he : (acc.insert x).toList = acc.toList ++ [x] := by simp [insert, hnew]
    have := ih (acc.insert x) (by simpa [he] using hacc)
    simpa [he] using this

end OrderedSet

end Choreography
