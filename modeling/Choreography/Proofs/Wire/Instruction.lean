/-
Choreography/Proofs/Wire/Instruction.lean

Instructions and their JSON form.

An instruction map whose numbers are finite is read back with every literal that has the text
of a placeholder turned into that placeholder, and everything else as it was
(`InstructionMap.ofJson?_toJson`).  The handles under which the instructions stand are written
as decimal digits, so these are read back as well (`ElementId.ofKey?_toKey`).

The instructions of a run are therefore read back as they were unless a style value in them is
`Reserved`, and such a value came of an interpolation, or was there before the run
(`ofJson?_toJson_emitted`).
-/
import Choreography.Animation.Build
import Choreography.Instruction.Wire
import Choreography.Proofs.Sketch.Run

namespace Choreography

/-! ### Handles -/

namespace Decimal

theorem digit?_digitChar {d : Nat} (h : d < 10) : digit? (Nat.digitChar d) = some d := by
  have hall : ∀ d < 10, digit? (Nat.digitChar d) = some d := by decide
  exact hall d h

/-- Digits are read from the left. -/
theorem digits?_append (acc : Nat) (xs ys : List Char) :
    digits? acc (xs ++ ys) = (digits? acc xs).bind fun acc => digits? acc ys := by
  induction xs generalizing acc with
  | nil => rfl
  | cons c xs ih =>
    rw [List.cons_append, digits?, digits?]
    -- a character that is no digit spoils both sides alike
    cases digit? c with
    | none => rfl
    | some d => exact ih _

/-- The digits of a number are read back. -/
theorem digits?_numeralText (n : Nat) : digits? 0 (numeralText n) = some n := by
  -- the last digit is the remainder by ten, and the others are the digits of the quotient
  induction n using Nat.strongRecOn with
  | ind n ih =>
    rw [numeralText, Nat.toDigits_eq_if (by decide)]
    split
    · next h => simp [digits?, digit?_digitChar h]
    · next h =>
      have hlast : digit? (Nat.digitChar (n % 10)) = some (n % 10) :=
        digit?_digitChar (Nat.mod_lt n (by decide))
      have hinit : digits? 0 (Nat.toDigits 10 (n / 10)) = some (n / 10) :=
        ih (n / 10) (by omega)
      rw [digits?_append, hinit, Option.bind_some, digits?, hlast]
      exact congrArg some (by omega)

end Decimal

namespace ElementId

variable {τ : Type}

/-- The key of an element is its number in decimal digits. -/
theorem toList_toKey (e : ElementId) : e.toKey.toList = Decimal.numeralText e.index.toNat := by
  rw [toKey, Nat.toString_eq_ofList_toDigits, String.toList_ofList]
  rfl

/-- Keys are read back. -/
theorem ofKey?_toKey (e : ElementId) : ofKey? e.toKey = some e := by
  -- the reader allows for 32 bits, and a handle has no more
  have hle : e.index.toNat ≤ 0xFFFFFFFF := Nat.le_of_lt_succ e.index.toNat_lt
  rw [ofKey?, toList_toKey, Decimal.digits?_numeralText]
  simp [hle]

/-- Handles that are written as numbers are read back as well. -/
theorem ofJson?_toJson (e : ElementId) : ofJson? (e.toJson (τ := τ)) = some e := by
  have hle : (e.index.toNat : Int) ≤ 0xFFFFFFFF := by
    exact_mod_cast Nat.le_of_lt_succ e.index.toNat_lt
  have hread : (e.toJson (τ := τ)).wholeIn? 0 0xFFFFFFFF = some (e.index.toNat : Int) :=
    if_pos ⟨Int.natCast_nonneg _, hle⟩
  rw [ofJson?, hread]
  simp

end ElementId

variable {τ : Type} [Quantity τ]

open Quantity (AllFinite allFinite_flatMap)

/-! ### Instructions -/

omit [Quantity τ] in
theorem PropertySet.ofJson?_toJson (s : OrderedSet String) :
    PropertySet.ofJson? (PropertySet.toJson (τ := τ) s) = some s := by
  have hread : Json.list? Json.text? (.array (s.toList.map (Json.text (ν := τ)))) =
      some (s.toList.map id) :=
    Json.list?_map fun _ _ => rfl
  rw [PropertySet.ofJson?, PropertySet.toJson, hread, List.map_id, Option.map_some,
    OrderedSet.ofList_toList]

namespace Keyframe

/-- The numbers in a keyframe. -/
def numbers (k : Keyframe τ) : List τ :=
  k.offset :: (StyleMap.values k.styles).flatMap StyleValue.numbers

/-- What a keyframe is after it was written and read. -/
def reread (k : Keyframe τ) : Keyframe τ := { k with styles := StyleMap.reread k.styles }

/-- The fields of a keyframe. -/
def fields (k : Keyframe τ) : List (String × Option (Json τ)) :=
  [("offset", some (.ofNumber k.offset)), ("easing", k.easing.map .text),
    ("styles", some (StyleMap.toJson k.styles))]

theorem toJson_eq (k : Keyframe τ) : k.toJson = .object (Json.present k.fields) := by
  cases heasing : k.easing <;> simp [toJson, fields, Json.member, heasing]

/-- A keyframe is read back, but for the texts that are kept for the placeholders. -/
theorem ofJson?_toJson {k : Keyframe τ} (h : AllFinite k.numbers) :
    ofJson? k.toJson = some k.reread := by
  have hfinite := Quantity.allFinite_cons.1 h
  have hfields : (Json.object (Json.present k.fields)).fields? ["offset", "easing", "styles"] =
      some [some (.ofNumber k.offset), k.easing.map .text, some (StyleMap.toJson k.styles)] :=
    Json.fields?_present rfl (by decide)
  rw [ofJson?, toJson_eq, hfields]
  simp [Json.required, Json.number?_ofNumber hfinite.1, Json.optional_text,
    StyleMap.ofJson?_toJson hfinite.2, reread]

end Keyframe

namespace Instruction

/-- The style values in an instruction. -/
def styleValues (i : Instruction τ) : List (StyleValue τ) :=
  i.keyframes.flatMap fun k => StyleMap.values k.styles

/-- The numbers in an instruction. -/
def numbers (i : Instruction τ) : List τ :=
  i.duration :: i.delay :: i.keyframes.flatMap Keyframe.numbers

/-- What an instruction is after it was written and read. -/
def reread (i : Instruction τ) : Instruction τ :=
  { i with keyframes := i.keyframes.map Keyframe.reread }

/-- The fields of an instruction. -/
def fields (i : Instruction τ) : List (String × Option (Json τ)) :=
  [("element", some i.element.toJson), ("keyframes", some (.array (i.keyframes.map Keyframe.toJson))),
    ("pre_style_props", some (PropertySet.toJson i.preStyleProps)),
    ("post_style_props", some (PropertySet.toJson i.postStyleProps)),
    ("duration", some (.ofNumber i.duration)), ("delay", some (.ofNumber i.delay)),
    ("easing", i.easing.map .text), ("sub_timeline", some (.bool i.isSubTimeline)),
    ("stretched", some (.bool i.isStretched)),
    ("stretch_starting_keyframe", some (.bool i.stretchStart))]

theorem toJson_eq (i : Instruction τ) : i.toJson = .object (Json.present i.fields) := by
  cases heasing : i.easing <;> simp [toJson, fields, Json.member, heasing]

/-- And so is an instruction. -/
theorem ofJson?_toJson {i : Instruction τ} (h : AllFinite i.numbers) :
    ofJson? i.toJson = some i.reread := by
  obtain ⟨hduration, hrest⟩ := Quantity.allFinite_cons.1 h
  obtain ⟨hdelay, hkeyframes⟩ := Quantity.allFinite_cons.1 hrest
  have hread : Json.list? Keyframe.ofJson? (.array (i.keyframes.map Keyframe.toJson)) =
      some (i.keyframes.map Keyframe.reread) :=
    Json.list?_map fun k hk => Keyframe.ofJson?_toJson (allFinite_flatMap.1 hkeyframes k hk)
  -- ten fields, all of different names
  have hfields : (Json.object (Json.present i.fields)).fields?
      ["element", "keyframes", "pre_style_props", "post_style_props", "duration", "delay",
        "easing", "sub_timeline", "stretched", "stretch_starting_keyframe"] =
      some (i.fields.map Prod.snd) :=
    Json.fields?_present rfl (by decide)
  rw [ofJson?, toJson_eq, hfields]
  simp [fields, Json.required, Json.withDefault, Json.bool?, ElementId.ofJson?_toJson, hread,
    PropertySet.ofJson?_toJson, Json.number?_ofNumber hduration, Json.number?_ofNumber hdelay,
    Json.optional_text, reread]

omit [Quantity τ] in
/-- An instruction is read back as it was just if no style value in it reads like a placeholder. -/
theorem reread_eq_self_iff {i : Instruction τ} :
    i.reread = i ↔ ∀ v ∈ i.styleValues, ¬v.Reserved := by
  have hkeyframe : ∀ k : Keyframe τ, k.reread = k ↔ ∀ v ∈ StyleMap.values k.styles, ¬v.Reserved :=
    fun k => (⟨fun h => congrArg Keyframe.styles h, fun h => by rw [Keyframe.reread, h]⟩ :
      k.reread = k ↔ StyleMap.reread k.styles = k.styles).trans StyleMap.reread_eq_self_iff
  have hlist : i.reread = i ↔ i.keyframes.map Keyframe.reread = i.keyframes :=
    ⟨fun h => congrArg keyframes h, fun h => by rw [reread, h]⟩
  rw [hlist, Json.map_eq_self_iff]
  simp only [hkeyframe, styleValues, List.mem_flatMap]
  exact ⟨fun h v ⟨k, hk, hv⟩ => h k hk v hv, fun h k hk v hv => h v ⟨k, hk, hv⟩⟩

end Instruction

namespace InstructionMap

/-- All instructions of a map. -/
def all (m : InstructionMap τ) : List (Instruction τ) := m.entries.flatMap Prod.snd

/-- What an instruction map is after it was written and read. -/
def reread (m : InstructionMap τ) : InstructionMap τ :=
  m.mapEntries fun _ is => is.map Instruction.reread

/-- An instruction map is read back, but for the texts that are kept for the placeholders. -/
theorem ofJson?_toJson {m : InstructionMap τ} (h : ∀ i ∈ m.all, AllFinite i.numbers) :
    ofJson? m.toJson = some m.reread := by
  have hentries : (m.toJson (τ := τ)).entries? (Json.list? Instruction.ofJson?) =
      some (m.entries.map fun entry => (entry.1.toKey, entry.2.map Instruction.reread)) := by
    rw [toJson, Json.entries?, List.mapM_map]
    refine Json.mapM_eq_some_map fun entry hentry => ?_
    have hlist : Json.list? Instruction.ofJson? (.array (entry.2.map Instruction.toJson)) =
        some (entry.2.map Instruction.reread) :=
      Json.list?_map fun i hi => Instruction.ofJson?_toJson
        (h i (List.mem_flatMap.2 ⟨entry, hentry, hi⟩))
    show (Json.list? Instruction.ofJson? (.array (entry.2.map Instruction.toJson))).map _ = _
    rw [hlist]
    rfl
  -- the keys are read in a second pass, over entries that are read already
  have hkeys : (m.entries.map fun entry => (entry.1.toKey, entry.2.map Instruction.reread)).mapM
      (fun entry => (ElementId.ofKey? entry.1).map fun e => (e, entry.2)) = some m.reread.entries := by
    rw [List.mapM_map]
    refine Json.mapM_eq_some_map fun entry _ => ?_
    show (ElementId.ofKey? entry.1.toKey).map _ = _
    rw [ElementId.ofKey?_toKey]
    rfl
  rw [ofJson?, hentries, Option.bind_eq_bind, Option.bind_some, hkeys, Option.bind_eq_bind,
    Option.bind_some]
  exact congrArg some (OrderedMap.ofList_entries _)

omit [Quantity τ] in
theorem reread_eq_self_iff {m : InstructionMap τ} :
    m.reread = m ↔ ∀ i ∈ m.all, ∀ v ∈ i.styleValues, ¬v.Reserved := by
  have hiff : m.reread = m ↔ ∀ entry ∈ m.entries, ∀ i ∈ entry.2, i.reread = i := by
    rw [OrderedMap.ext_iff]
    show m.entries.map (fun entry => (entry.1, entry.2.map Instruction.reread)) = m.entries ↔ _
    rw [Json.map_eq_self_iff]
    refine forall₂_congr fun entry _ => ?_
    rw [← Json.map_eq_self_iff]
    exact Prod.ext_iff.trans (and_iff_right rfl)
  rw [hiff]
  simp only [Instruction.reread_eq_self_iff, all, List.mem_flatMap]
  exact ⟨fun h i ⟨entry, hentry, hi⟩ => h entry hentry i hi,
    fun h entry hentry i hi => h i ⟨entry, hentry, hi⟩⟩

/-- The instructions of a run are read back as they were, but for literals with a text that is
kept for a placeholder.  Such a literal came of an interpolation, or was there before the run. -/
theorem ofJson?_toJson_emitted {host : Host} {root : ElementId} {tree : Animation τ}
    {setup : Setup τ} {delegated m : InstructionMap τ}
    (hm : ∀ i ∈ m.all, i ∈ (compile host root tree setup delegated).instructions)
    (hfinite : ∀ i ∈ m.all, AllFinite i.numbers) :
    ofJson? m.toJson = some m.reread ∧
      (ofJson? m.toJson = some m ↔ ∀ i ∈ m.all, ∀ v ∈ i.styleValues, ¬v.Reserved) ∧
      ∀ i ∈ m.all, ∀ v ∈ i.styleValues, Comes host root tree setup delegated v := by
  have hread := ofJson?_toJson hfinite
  refine ⟨hread, ?_, fun i hi v hv => ?_⟩
  · rw [hread, Option.some_inj]
    exact reread_eq_self_iff
  · obtain ⟨k, hk, hv⟩ := List.mem_flatMap.1 hv
    obtain ⟨entry, hentry, rfl⟩ := List.mem_map.1 hv
    exact comes_of_mem_instructions (hm i hi) k hk entry hentry

/-- A style whose value is a parameter, and an animated step away from it. -/
def starred : Animation ℚ :=
  .sequence
    [.style (.ofEntries [("a", .text "\x7b\x7bx\x7d\x7d")]),
      .animate (.ofDuration 100) (.style (.ofEntries [("a", .number 1)]))]
    none

/-- The parameter is the text of a placeholder. -/
def starredSetup : Setup ℚ :=
  { Setup.standard with options := { Options.none with params := some (.ofList [("x", .text "*")]) } }

/-- Its instruction, whose first keyframe holds the text. -/
def starredInstruction : Instruction ℚ where
  element := ⟨1⟩
  keyframes :=
    [⟨0, none, .ofList [("a", .literal (.text "*"))]⟩,
      ⟨1, none, .ofList [("a", .literal (.number 1))]⟩]
  preStyleProps := ∅
  postStyleProps := ∅
  duration := 100
  delay := 0
  easing := none
  isSubTimeline := false
  isStretched := false
  stretchStart := false

theorem instructions_starred :
    (compile (fun _ _ _ => []) ⟨1⟩ starred starredSetup ∅).instructions = [starredInstruction] := by
  decide +kernel

theorem allFinite_starred : AllFinite starredInstruction.numbers := fun _ _ => rfl

/-- A map with the instruction is read back with a placeholder in the first keyframe. -/
theorem ofJson?_toJson_emitted_starred :
    let m : InstructionMap ℚ := .ofList [(⟨1⟩, [starredInstruction])]
    (∀ i ∈ m.all, i ∈ (compile (fun _ _ _ => []) ⟨1⟩ starred starredSetup ∅).instructions) ∧
      (∀ i ∈ m.all, AllFinite i.numbers) ∧ m.reread ≠ m ∧ ofJson? m.toJson = some m.reread := by
  intro m
  have hm : ∀ i ∈ m.all,
      i ∈ (compile (fun _ _ _ => []) ⟨1⟩ starred starredSetup ∅).instructions := by
    intro i hi
    rw [instructions_starred]
    exact hi
  have hfinite : ∀ i ∈ m.all, AllFinite i.numbers := by
    intro i hi
    rw [List.mem_singleton.1 hi]
    exact allFinite_starred
  exact ⟨hm, hfinite, by decide +kernel, (ofJson?_toJson_emitted hm hfinite).1⟩

/-- Not every emitted instruction with finite numbers is reproduced. -/
theorem not_reproduced_starred :
    ¬∀ i ∈ (compile (fun _ _ _ => []) ⟨1⟩ starred starredSetup ∅).instructions,
      AllFinite i.numbers →
        ofJson? (toJson (.ofList [(i.element, [i])])) = some (.ofList [(i.element, [i])]) := by
  intro h
  have hmem : starredInstruction ∈
      (compile (fun _ _ _ => []) ⟨1⟩ starred starredSetup ∅).instructions := by
    rw [instructions_starred]
    exact List.mem_singleton_self _
  have hread := h starredInstruction hmem allFinite_starred
  revert hread
  decide +kernel

end InstructionMap

end Choreography
