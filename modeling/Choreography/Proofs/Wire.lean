/-
Choreography/Proofs/Wire.lean

Reading what was written.

A record is written as an object that has a member for every field with a value
(`Json.present`).  As long as the names of the fields are distinct, the reader finds each
field again, and finds nothing where there was no value (`Json.fields?_present`), and the
same is true of what stands beside a tag (`Json.tagged?_present`).

From there the parts that trees and instructions have in common are read back one by one.
Two things can stand in the way.  A number that is not finite has no JSON form.  And two
texts are kept for the placeholders, so a literal with such a text is `Reserved`: it is
written like a placeholder and read as one (`StyleValue.reread_eq_self_iff`).
-/
import Choreography.Animation.Wire
import Choreography.Instruction.Wire
import Mathlib

namespace Choreography

namespace Json

variable {ν α β : Type}

/-- A list stays as it is just if each of its items does. -/
theorem map_eq_self_iff {f : α → α} {xs : List α} : xs.map f = xs ↔ ∀ x ∈ xs, f x = x := by
  conv_lhs => rhs; rw [← List.map_id xs]
  exact List.map_inj_left

/-- If each item is read, so is the list. -/
theorem mapM_eq_some_map {read : α → Option β} {f : α → β} {xs : List α}
    (h : ∀ x ∈ xs, read x = some (f x)) : xs.mapM read = some (xs.map f) := by
  induction xs with
  | nil => rfl
  | cons x xs ih =>
    rw [List.forall_mem_cons] at h
    rw [List.mapM_cons, h.1, ih h.2]
    rfl

/-! ### Records -/

/-- The members of a record: one for every field that has a value. -/
def present (fields : List (String × Option (Json ν))) : List (String × Json ν) :=
  fields.filterMap fun field => field.2.map fun value => (field.1, value)

@[simp] theorem present_nil : present ([] : List (String × Option (Json ν))) = [] := rfl

@[simp] theorem present_cons_some (key : String) (value : Json ν)
    (fields : List (String × Option (Json ν))) :
    present ((key, some value) :: fields) = (key, value) :: present fields := rfl

@[simp] theorem present_cons_none (key : String) (fields : List (String × Option (Json ν))) :
    present ((key, none) :: fields) = present fields := rfl

theorem present_append (xs ys : List (String × Option (Json ν))) :
    present (xs ++ ys) = present xs ++ present ys :=
  List.filterMap_append

/-- A member that is left out when it has no value. -/
theorem member_eq_present (key : String) (write : α → Json ν) (o : Option α) :
    member key write o = present [(key, o.map write)] := by
  cases o <;> rfl

/-- The members are the fields with a value. -/
theorem mem_present {key : String} {value : Json ν} {fields : List (String × Option (Json ν))} :
    (key, value) ∈ present fields ↔ (key, some value) ∈ fields := by
  simp only [present, List.mem_filterMap, Option.map_eq_some_iff, Prod.mk.injEq]
  constructor
  · rintro ⟨⟨key', value'⟩, hmem, v, hv, rfl, rfl⟩
    rwa [show value' = some v from hv] at hmem
  · exact fun hmem => ⟨_, hmem, value, rfl, rfl, rfl⟩

/-- A name that no field has is no key. -/
theorem not_mem_keys_present {key : String} {fields : List (String × Option (Json ν))}
    (h : key ∉ fields.map Prod.fst) : ∀ member ∈ present fields, member.1 ≠ key := by
  rintro ⟨key', value⟩ hmem rfl
  exact h (List.mem_map_of_mem (mem_present.1 hmem))

/-- A key that is not there is not found, which is no mistake. -/
theorem member?_of_not_mem {key : String} {members : List (String × Json ν)}
    (h : ∀ member ∈ members, member.1 ≠ key) : member? key members = some none := by
  induction members with
  | nil => rfl
  | cons member members ih =>
    obtain ⟨key', value⟩ := member
    rw [List.forall_mem_cons] at h
    rw [member?, if_neg h.1, ih h.2]

/-- A member whose key is not repeated is found. -/
theorem member?_cons_self {key : String} (value : Json ν) {members : List (String × Json ν)}
    (h : ∀ member ∈ members, member.1 ≠ key) :
    member? key ((key, value) :: members) = some (some value) := by
  -- a repeated key would be a mistake
  have hany : members.any (·.1 = key) = false := by
    rw [List.any_eq_false]
    intro member hmember
    simpa using h member hmember
  rw [member?, if_pos rfl, hany]
  rfl

/-- Each field of a record is found again. -/
theorem member?_present {fields : List (String × Option (Json ν))}
    (hnodup : (fields.map Prod.fst).Nodup) {key : String} {value : Option (Json ν)}
    (h : (key, value) ∈ fields) : member? key (present fields) = some value := by
  induction fields with
  | nil => cases h
  | cons field fields ih =>
    obtain ⟨key', value'⟩ := field
    rw [List.map_cons, List.nodup_cons] at hnodup
    rcases List.mem_cons.1 h with heq | hmem
    · obtain ⟨rfl, rfl⟩ := Prod.mk.inj heq
      -- the other fields have other names, so it does not matter which of them have values
      have hother := not_mem_keys_present hnodup.1
      cases value with
      | none => exact member?_of_not_mem hother
      | some v => exact member?_cons_self v hother
    · -- the field comes later, and the first one has another name
      have hkey : key ∈ fields.map Prod.fst := List.mem_map_of_mem hmem
      have hne : key' ≠ key := fun e => hnodup.1 (e ▸ hkey)
      cases value' with
      | none => exact ih hnodup.2 hmem
      | some v =>
        rw [present_cons_some, member?, if_neg hne]
        exact ih hnodup.2 hmem

/-- The fields of a record are read back. -/
theorem fields?_present {names : List String} {fields : List (String × Option (Json ν))}
    (hnames : fields.map Prod.fst = names) (hnodup : names.Nodup) :
    (object (present fields)).fields? names = some (fields.map Prod.snd) := by
  subst hnames
  have hread : ∀ field ∈ fields, member? field.1 (present fields) = some field.2 :=
    fun field hfield => member?_present hnodup hfield
  show (fields.map Prod.fst).mapM (fun name => member? name (present fields)) = _
  rw [List.mapM_map]
  exact mapM_eq_some_map hread

/-- So are the tag of a tagged record and what stands beside it. -/
theorem tagged?_present {key : String} (tag : Json ν) (fields : List (String × Option (Json ν)))
    (h : key ∉ fields.map Prod.fst) :
    (object ((key, tag) :: present fields)).tagged? key = some (tag, object (present fields)) := by
  have hother := not_mem_keys_present h
  -- taking the tag away leaves the rest, as no field is called like it
  have hfilter : (present fields).filter (·.1 ≠ key) = present fields := by
    rw [List.filter_eq_self]
    intro member hmember
    simpa using hother member hmember
  rw [tagged?, member?_cons_self tag hother]
  simp only
  rw [List.filter_cons_of_neg (by simp), hfilter]

/-! ### Depth and readability -/

/-- Items are less deep than the array. -/
theorem depth_lt_array {item : Json ν} {items : List (Json ν)} (h : item ∈ items) :
    item.depth < (array items).depth := by
  rw [depth, Nat.lt_succ_iff]
  induction items with
  | nil => cases h
  | cons first items ih =>
    rw [itemsDepth]
    rcases List.mem_cons.1 h with rfl | h
    · exact Nat.le_max_left _ _
    · exact Nat.le_trans (ih h) (Nat.le_max_right _ _)

/-- Members are less deep than the object. -/
theorem depth_lt_object {key : String} {value : Json ν} {members : List (String × Json ν)}
    (h : (key, value) ∈ members) : value.depth < (object members).depth := by
  rw [depth, Nat.lt_succ_iff]
  induction members with
  | nil => cases h
  | cons first members ih =>
    rw [membersDepth]
    rcases List.mem_cons.1 h with rfl | h
    · exact Nat.le_max_left _ _
    · exact Nat.le_trans (ih h) (Nat.le_max_right _ _)

theorem depth_lt_object_present (key : String) {value : Json ν}
    {fields : List (String × Option (Json ν))} (h : (key, some value) ∈ fields) :
    value.depth < (object (present fields)).depth :=
  depth_lt_object (mem_present.2 h)

@[simp] theorem isReadable_array {items : List (Json ν)} :
    (array items).isReadable = true ↔ ∀ item ∈ items, item.isReadable = true := by
  rw [isReadable]
  induction items with
  | nil => simp [itemsReadable]
  | cons item items ih => simp [itemsReadable, ih]

@[simp] theorem isReadable_object {members : List (String × Json ν)} :
    (object members).isReadable = true ↔ ∀ member ∈ members, member.2.isReadable = true := by
  rw [isReadable]
  induction members with
  | nil => simp [membersReadable]
  | cons member members ih =>
    obtain ⟨key, value⟩ := member
    simp [membersReadable, ih]

/-- A record is readable if its values are. -/
theorem isReadable_object_present {fields : List (String × Option (Json ν))} :
    (object (present fields)).isReadable = true ↔
      ∀ field ∈ fields, ∀ value ∈ field.2, value.isReadable = true := by
  rw [isReadable_object]
  constructor
  · rintro h ⟨key, value?⟩ hfield value hvalue
    exact h (key, value) (mem_present.2 (Option.mem_def.1 hvalue ▸ hfield))
  · rintro h ⟨key, value⟩ hmember
    exact h _ (mem_present.1 hmember) value rfl

@[simp] theorem isReadable_text (s : String) : (text s : Json ν).isReadable = true := rfl

@[simp] theorem isReadable_bool (b : Bool) : (bool b : Json ν).isReadable = true := rfl

@[simp] theorem isReadable_whole (n : Int) : (whole n : Json ν).isReadable = true := rfl

/-! ### Simple values -/

/-- An optional value is read back if the value is, and is not written as null. -/
theorem optional_map {read : Json ν → Option α} {write : α → Json ν} {o : Option α}
    (h : ∀ a ∈ o, read (write a) = some a) (hnull : ∀ a ∈ o, write a ≠ null) :
    optional read (o.map write) = some o := by
  cases o with
  | none => rfl
  | some a =>
    have hread : optional read (some (write a)) = (read (write a)).map some := by
      unfold optional
      -- a value that is there is read, unless it is null
      split
      · contradiction
      · rename_i heq
        exact absurd (Option.some.inj heq) (hnull a rfl)
      · rename_i heq
        rw [Option.some.inj heq]
    rw [Option.map_some, hread, h a rfl, Option.map_some]

theorem optional_text (o : Option String) : optional text? (o.map (text (ν := ν))) = some o :=
  optional_map (fun _ _ => rfl) fun _ _ => nofun

/-- A list is read back, item by item. -/
theorem list?_map {read : Json ν → Option β} {write : α → Json ν} {f : α → β} {xs : List α}
    (h : ∀ x ∈ xs, read (write x) = some (f x)) :
    list? read (array (xs.map write)) = some (xs.map f) := by
  rw [list?, List.mapM_map]
  exact mapM_eq_some_map h

section Numbers

variable [Quantity ν]

/-- A finite number is read back. -/
theorem number?_ofNumber {x : ν} (h : Quantity.isFinite x = true) :
    (ofNumber x).number? = some x := by
  rw [ofNumber, if_pos h]
  rfl

/-- Only a number that is not finite is written as null. -/
theorem ofNumber_ne_null {x : ν} (h : Quantity.isFinite x = true) : ofNumber x ≠ null := by
  rw [ofNumber, if_pos h]
  nofun

@[simp] theorem isReadable_ofNumber (x : ν) : (ofNumber x).isReadable = true := by
  unfold ofNumber
  split <;> rfl

end Numbers

end Json

variable {τ : Type} [Quantity τ]

/-- Whether all of some numbers have a JSON form. -/
def Quantity.AllFinite (xs : List τ) : Prop := ∀ x ∈ xs, Quantity.isFinite x = true

@[simp] theorem Quantity.allFinite_append {xs ys : List τ} :
    AllFinite (xs ++ ys) ↔ AllFinite xs ∧ AllFinite ys :=
  List.forall_mem_append

@[simp] theorem Quantity.allFinite_cons {x : τ} {xs : List τ} :
    AllFinite (x :: xs) ↔ isFinite x = true ∧ AllFinite xs :=
  List.forall_mem_cons

@[simp] theorem Quantity.allFinite_nil : AllFinite ([] : List τ) := nofun

/-- The numbers in several things are finite just if those in each are. -/
theorem Quantity.allFinite_flatMap {α : Type} {f : α → List τ} {as : List α} :
    AllFinite (as.flatMap f) ↔ ∀ a ∈ as, AllFinite (f a) := by
  simp only [AllFinite, List.mem_flatMap]
  exact ⟨fun h a ha x hx => h x ⟨a, ha, hx⟩, fun h x ⟨a, ha, hx⟩ => h a ha x hx⟩

open Quantity (AllFinite allFinite_flatMap)

/-! ### Scalars and style values -/

namespace Scalar

/-- The numbers in a scalar. -/
def numbers : Scalar τ → List τ
  | number x => [x]
  | text _ => []

/-- A scalar is read back; a text needs nothing for that. -/
theorem ofJson?_toJson {s : Scalar τ} (h : AllFinite s.numbers) : ofJson? s.toJson = some s := by
  cases s with
  | text s => rfl
  | number x =>
    have hx : Quantity.isFinite x = true := h x (List.mem_singleton_self x)
    rw [toJson, Json.ofNumber, if_pos hx]
    rfl

theorem toJson_ne_null {s : Scalar τ} (h : AllFinite s.numbers) : s.toJson ≠ .null := by
  cases s with
  | text s => exact nofun
  | number x => exact Json.ofNumber_ne_null (h x (List.mem_singleton_self x))

@[simp] theorem isReadable_toJson (s : Scalar τ) : s.toJson.isReadable = true := by
  cases s with
  | text s => rfl
  | number x => exact Json.isReadable_ofNumber x

end Scalar

namespace StyleValue

/-- The numbers in a style value. -/
def numbers : StyleValue τ → List τ
  | literal s => s.numbers
  | _ => []

/-- Whether a value is a literal with a text that is kept for a placeholder. -/
def Reserved (v : StyleValue τ) : Prop :=
  v = literal (.text autoToken) ∨ v = literal (.text preSnapshotToken)

omit [Quantity τ] in
instance [DecidableEq τ] : DecidablePred (Reserved (τ := τ)) :=
  fun v => inferInstanceAs
    (Decidable (v = literal (.text autoToken) ∨ v = literal (.text preSnapshotToken)))

/-- What a value is after it was written and read: a placeholder if its text is kept for one. -/
def reread (v : StyleValue τ) : StyleValue τ := ofScalar v.toScalar

omit [Quantity τ] in
/-- A value is read back as it was unless it is a literal that reads like a placeholder. -/
theorem reread_eq_self_iff {v : StyleValue τ} : v.reread = v ↔ ¬v.Reserved := by
  cases v with
  | auto => simp [reread, Reserved, toScalar, ofScalar]
  | preSnapshot => simp [reread, Reserved, toScalar, ofScalar, autoToken, preSnapshotToken]
  | literal s =>
    cases s with
    | number x => simp [reread, Reserved, toScalar, ofScalar]
    | text s =>
      simp only [reread, Reserved, toScalar, ofScalar, literal.injEq, Scalar.text.injEq]
      -- there are two such texts, and they are tried one after the other
      by_cases hauto : s = autoToken
      · simp [hauto]
      · by_cases hpre : s = preSnapshotToken
        · subst hpre
          simp [hauto]
        · simp [hauto, hpre]

/-- A style value is read back, but for the placeholders. -/
theorem ofJson?_toJson {v : StyleValue τ} (h : AllFinite v.numbers) :
    ofJson? v.toJson = some v.reread := by
  -- placeholders are written as texts, so they bring no numbers
  have hscalar : AllFinite v.toScalar.numbers := by
    cases v with
    | literal s => exact h
    | auto => exact Quantity.allFinite_nil
    | preSnapshot => exact Quantity.allFinite_nil
  rw [ofJson?, toJson, Scalar.ofJson?_toJson hscalar]
  rfl

end StyleValue

/-! ### Maps -/

namespace OrderedMap

omit [Quantity τ]

/-- A map is read back in its order if its values are. -/
theorem ofJson?_toJson {α β : Type} {read : Json τ → Option β} {write : α → Json τ} {f : α → β}
    {m : OrderedMap String α} (h : ∀ entry ∈ m.entries, read (write entry.2) = some (f entry.2)) :
    ofJson? read (m.toJson write) = some (m.mapEntries fun _ => f) := by
  have hentries : Json.entries? read (m.toJson write) =
      some (m.mapEntries fun _ => f).entries := by
    rw [toJson, Json.entries?, List.mapM_map]
    refine Json.mapM_eq_some_map fun entry hentry => ?_
    show (read (write entry.2)).map (fun a => (entry.1, a)) = _
    rw [h entry hentry]
    rfl
  rw [ofJson?, hentries, Option.map_some, ofList_entries]

theorem isReadable_toJson {α : Type} {write : α → Json τ} (h : ∀ a, (write a).isReadable = true)
    (m : OrderedMap String α) : (m.toJson write).isReadable = true := by
  rw [toJson, Json.isReadable_object]
  intro member hmember
  obtain ⟨entry, -, rfl⟩ := List.mem_map.1 hmember
  exact h entry.2

end OrderedMap

namespace StyleMap

/-- The values of a style map. -/
def values (m : StyleMap τ) : List (StyleValue τ) := m.entries.map Prod.snd

/-- What a style map is after it was written and read. -/
def reread (m : StyleMap τ) : StyleMap τ := m.mapEntries fun _ => StyleValue.reread

omit [Quantity τ] in
/-- A style map is read back as it was just if each of its values is. -/
theorem reread_eq_self_iff {m : StyleMap τ} : reread m = m ↔ ∀ v ∈ values m, ¬v.Reserved := by
  have hiff : reread m = m ↔ ∀ entry ∈ m.entries, entry.2.reread = entry.2 := by
    rw [OrderedMap.ext_iff]
    show m.entries.map (fun entry => (entry.1, entry.2.reread)) = m.entries ↔ _
    rw [Json.map_eq_self_iff]
    exact forall₂_congr fun entry _ => Prod.ext_iff.trans (and_iff_right rfl)
  rw [hiff, values, List.forall_mem_map]
  exact forall₂_congr fun entry _ => StyleValue.reread_eq_self_iff

/-- A style map is read back, but for the placeholders. -/
theorem ofJson?_toJson {m : StyleMap τ} (h : AllFinite ((values m).flatMap StyleValue.numbers)) :
    ofJson? (toJson m) = some (reread m) :=
  OrderedMap.ofJson?_toJson fun _ hentry =>
    StyleValue.ofJson?_toJson (allFinite_flatMap.1 h _ (List.mem_map_of_mem hentry))

@[simp] theorem isReadable_toJson (m : StyleMap τ) : (toJson m).isReadable = true :=
  OrderedMap.isReadable_toJson (fun v => v.toScalar.isReadable_toJson) m

end StyleMap

namespace Params

@[simp] theorem isReadable_toJson (m : Params τ) : (toJson m).isReadable = true :=
  OrderedMap.isReadable_toJson Scalar.isReadable_toJson m

theorem toJson_ne_null (m : Params τ) : toJson m ≠ .null := nofun

/-- Parameters are read back as they were, for they are scalars and no placeholders. -/
theorem ofJson?_toJson {m : Params τ}
    (h : AllFinite (m.entries.flatMap fun entry => entry.2.numbers)) :
    ofJson? (toJson m) = some m := by
  have hscalars : ∀ entry ∈ m.entries, Scalar.ofJson? entry.2.toJson = some (id entry.2) :=
    fun entry hentry => Scalar.ofJson?_toJson (allFinite_flatMap.1 h entry hentry)
  have hread := OrderedMap.ofJson?_toJson hscalars
  -- reading changes no entry, so the map is the same one
  rwa [OrderedMap.mapEntries_eq_self (f := fun _ => id) fun _ _ => rfl] at hread

end Params

end Choreography
