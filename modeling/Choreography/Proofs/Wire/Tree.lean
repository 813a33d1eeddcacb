/-
Choreography/Proofs/Wire/Tree.lean

Animation trees survive their JSON form.

A node is written as a record that is tagged by its kind: `Animation.fields` lists the fields
of the record, each with its value if it has one.  A node is read back if the nodes directly
inside it are (`fieldsWith?_fields`, kind by kind).  The nodes inside a node are less deep as
JSON values, so an induction on the depth that the reader is allowed ties this together
(`read?_toJson`).

What a tree may hold is said of the `parts` of all its nodes, those inside triggers and
transitions included: numbers have to be finite, and no literal may be `Reserved`.

Main result: `Animation.ofJson?_toJson_tree`.
-/
import Choreography.Animation.Build
import Choreography.Proofs.Wire
import Choreography.Quantity.Exact

namespace Choreography

variable {τ : Type} [Quantity τ]

open Quantity (AllFinite allFinite_flatMap)

/-! ### Options -/

namespace Options

/-- The numbers in options. -/
def numbers (o : Options τ) : List τ :=
  o.delay.toList.flatMap Scalar.numbers ++ o.duration.toList.flatMap Scalar.numbers ++
    (o.params.getD ∅).entries.flatMap fun entry => entry.2.numbers

/-- The fields of options. -/
def fields (o : Options τ) : List (String × Option (Json τ)) :=
  [("delay", o.delay.map Scalar.toJson), ("duration", o.duration.map Scalar.toJson),
    ("params", o.params.map Params.toJson)]

/-- Options are written as the record of their fields. -/
theorem toJson_eq (o : Options τ) : o.toJson = .object (Json.present o.fields) := by
  simp only [toJson, Json.member_eq_present, ← Json.present_append]
  rfl

@[simp] theorem isReadable_toJson (o : Options τ) : o.toJson.isReadable = true := by
  rw [toJson_eq, Json.isReadable_object_present]
  simp [fields]

/-- Options with finite numbers are read back. -/
theorem ofJson?_toJson {o : Options τ} (h : AllFinite o.numbers) : ofJson? o.toJson = some o := by
  simp only [numbers, Quantity.allFinite_append, allFinite_flatMap, Option.mem_toList] at h
  obtain ⟨⟨hdelay, hduration⟩, hparams⟩ := h
  -- delay and duration are alike: optional scalars, which are never null
  have hscalar : ∀ {s : Option (Scalar τ)}, (∀ a ∈ s, AllFinite a.numbers) →
      Json.optional Scalar.ofJson? (s.map Scalar.toJson) = some s := fun hs =>
    Json.optional_map (fun a ha => Scalar.ofJson?_toJson (hs a ha))
      fun a ha => Scalar.toJson_ne_null (hs a ha)
  have hmap : Json.optional Params.ofJson? (o.params.map Params.toJson) = some o.params := by
    refine Json.optional_map (fun m hm => Params.ofJson?_toJson ?_) fun m _ => Params.toJson_ne_null m
    rw [Option.mem_def.1 hm] at hparams
    exact allFinite_flatMap.2 hparams
  have hfields : (Json.object (Json.present o.fields)).fields? ["delay", "duration", "params"] =
      some [o.delay.map Scalar.toJson, o.duration.map Scalar.toJson, o.params.map Params.toJson] :=
    Json.fields?_present rfl (by decide)
  rw [ofJson?, toJson_eq, hfields]
  simp [hscalar hdelay, hscalar hduration, hmap]

theorem member_eq (o : Option (Options τ)) :
    member o = Json.present [("options", o.map toJson)] :=
  Json.member_eq_present _ _ _

/-- An optional field of options is read back, whether it is there or not. -/
theorem field?_map {o : Option (Options τ)} (h : ∀ a ∈ o, AllFinite a.numbers) :
    field? (o.map toJson) = some o :=
  Json.optional_map (fun a ha => ofJson?_toJson (h a ha)) fun _ _ => nofun

end Options

/-! ### Timings -/

namespace Timings

/-- The numbers in timings. -/
def numbers (t : Timings τ) : List τ := [t.duration, t.delay]

/-- The fields of timings. -/
def fields (t : Timings τ) : List (String × Option (Json τ)) :=
  [("duration", some (Json.ofNumber t.duration)), ("delay", some (Json.ofNumber t.delay)),
    ("easing", t.easing.map .text)]

theorem toJson_eq (t : Timings τ) : t.toJson = .object (Json.present t.fields) := by
  simp only [toJson, Json.member_eq_present]
  rfl

/-- Timings with finite numbers are read back. -/
theorem ofJson?_toJson {t : Timings τ} (h : AllFinite t.numbers) : ofJson? t.toJson = some t := by
  simp only [numbers, Quantity.allFinite_cons] at h
  have hfields : (Json.object (Json.present t.fields)).fields? ["duration", "delay", "easing"] =
      some [some (Json.ofNumber t.duration), some (Json.ofNumber t.delay), t.easing.map .text] :=
    Json.fields?_present rfl (by decide)
  rw [ofJson?, toJson_eq, hfields]
  simp [Json.required, Json.withDefault, Json.number?_ofNumber, h, Json.optional_text]

end Timings

namespace Timing

/-- The numbers in the timing of a step. -/
def numbers : Timing τ → List τ
  | fixed t => t.numbers
  | expression _ => []

/-- Both forms of timing are read back; an expression is a text, whatever it says. -/
theorem ofJson?_toJson {t : Timing τ} (h : AllFinite t.numbers) : ofJson? t.toJson = some t := by
  cases t with
  | expression s => rfl
  | fixed t =>
    show (Timings.ofJson? t.toJson).map fixed = _
    rw [Timings.ofJson?_toJson h]
    rfl

theorem isReadable_toJson (t : Timing τ) : t.toJson.isReadable = true := by
  cases t with
  | expression s => rfl
  | fixed t =>
    show t.toJson.isReadable = true
    rw [Timings.toJson_eq, Json.isReadable_object_present]
    simp [Timings.fields]

end Timing

/-! ### Styles -/

namespace StyleEntry

/-- The values in a style entry. -/
def styleValues : StyleEntry τ → List (StyleValue τ)
  | values m => StyleMap.values m
  | wildcard => []

/-- A style entry is read back if no literal in it stands for a placeholder. -/
theorem ofJson?_toJson {e : StyleEntry τ}
    (hfinite : AllFinite (e.styleValues.flatMap StyleValue.numbers))
    (hfree : ∀ v ∈ e.styleValues, ¬v.Reserved) : ofJson? e.toJson = some e := by
  cases e with
  | wildcard => rfl
  | values m =>
    show (StyleMap.ofJson? m.toJson).map values = _
    rw [StyleMap.ofJson?_toJson hfinite, StyleMap.reread_eq_self_iff.2 hfree]
    rfl

@[simp] theorem isReadable_toJson (e : StyleEntry τ) : e.toJson.isReadable = true := by
  cases e with
  | wildcard => rfl
  | values m => exact StyleMap.isReadable_toJson m

end StyleEntry

namespace StyleStep

/-- The values in a style. -/
def styleValues (s : StyleStep τ) : List (StyleValue τ) := s.entries.flatMap StyleEntry.styleValues

/-- The numbers in a style. -/
def numbers (s : StyleStep τ) : List τ := s.styleValues.flatMap StyleValue.numbers ++ s.offset.toList

/-- Whether a style can be written down. -/
structure Writable (s : StyleStep τ) : Prop where
  finite : AllFinite s.numbers
  free : ∀ v ∈ s.styleValues, ¬v.Reserved

/-- The fields of a style. -/
def fields (s : StyleStep τ) : List (String × Option (Json τ)) :=
  [("styles", some (.array (s.entries.map StyleEntry.toJson))), ("easing", s.easing.map .text),
    ("offset", s.offset.map Json.ofNumber)]

theorem members_eq (s : StyleStep τ) : s.members = Json.present s.fields := by
  simp only [members, Json.member_eq_present, ← Json.present_append]
  rfl

theorem isReadable_fields (s : StyleStep τ) :
    ∀ field ∈ s.fields, ∀ value ∈ field.2, value.isReadable = true := by
  simp [fields]

/-- A style is read back from its fields, wherever these stand. -/
theorem ofJson?_fields {s : StyleStep τ} (h : s.Writable) :
    ofJson? (.object (Json.present s.fields)) = some s := by
  obtain ⟨hnumbers, hfree⟩ := h
  simp only [numbers, Quantity.allFinite_append, styleValues, List.flatMap_assoc,
    allFinite_flatMap] at hnumbers
  have hentries : Json.list? StyleEntry.ofJson? (.array (s.entries.map StyleEntry.toJson)) =
      some s.entries := by
    rw [Json.list?_map fun e he => ?_, List.map_id]
    exact StyleEntry.ofJson?_toJson (allFinite_flatMap.2 (hnumbers.1 e he))
      fun v hv => hfree v (List.mem_flatMap.2 ⟨e, he, hv⟩)
  -- an offset is a number, so it is not mistaken for one that is missing
  have hoffset : Json.optional Json.number? (s.offset.map Json.ofNumber) = some s.offset :=
    Json.optional_map
      (fun x hx => Json.number?_ofNumber (hnumbers.2 x (Option.mem_toList.2 hx)))
      fun x hx => Json.ofNumber_ne_null (hnumbers.2 x (Option.mem_toList.2 hx))
  have hfields : (Json.object (Json.present s.fields)).fields? ["styles", "easing", "offset"] =
      some [some (.array (s.entries.map StyleEntry.toJson)), s.easing.map .text,
        s.offset.map Json.ofNumber] :=
    Json.fields?_present rfl (by decide)
  rw [ofJson?, hfields]
  simp [Json.withDefault, hentries, hoffset, Json.optional_text]

theorem ofJson?_toJson {s : StyleStep τ} (h : s.Writable) : ofJson? s.toJson = some s := by
  rw [toJson, members_eq, ofJson?_fields h]

/-- The fields of a list of keyframes. -/
def stepFields (steps : List (StyleStep τ)) : List (String × Option (Json τ)) :=
  [("steps", some (.array (steps.map toJson)))]

theorem isReadable_toJson (s : StyleStep τ) : s.toJson.isReadable = true := by
  rw [toJson, members_eq, Json.isReadable_object_present]
  exact s.isReadable_fields

/-- A list of keyframes is read back if each of its styles is. -/
theorem steps?_fields {steps : List (StyleStep τ)} (h : ∀ s ∈ steps, s.Writable) :
    steps? (.object (Json.present (stepFields steps))) = some steps := by
  have hfields : (Json.object (Json.present (stepFields steps))).fields? ["steps"] =
      some [some (.array (steps.map toJson))] :=
    Json.fields?_present rfl (by decide)
  have hsteps : Json.list? ofJson? (.array (steps.map toJson)) = some steps := by
    rw [Json.list?_map fun s hs => ofJson?_toJson (h s hs), List.map_id']
  rw [steps?, hfields]
  simp [Json.required, hsteps]

end StyleStep

namespace NamedState

/-- The fields of a state. -/
def fields (s : NamedState τ) : List (String × Option (Json τ)) :=
  [("name", some (.text s.name)), ("style", some s.style.toJson)]

theorem isReadable_fields (s : NamedState τ) :
    ∀ field ∈ s.fields, ∀ value ∈ field.2, value.isReadable = true := by
  simp [fields, StyleStep.isReadable_toJson]

theorem ofJson?_fields {s : NamedState τ} (h : s.style.Writable) :
    ofJson? (.object (Json.present s.fields)) = some s := by
  have hfields : (Json.object (Json.present s.fields)).fields? ["name", "style"] =
      some [some (.text s.name), some s.style.toJson] :=
    Json.fields?_present rfl (by decide)
  rw [ofJson?, hfields]
  simp [Json.required, Json.text?, StyleStep.ofJson?_toJson h]

end NamedState

namespace Kind

omit [Quantity τ] in
/-- Every kind has a tag of its own. -/
theorem ofTag?_tag (k : Kind) (nested : Bool) :
    ofTag? (τ := τ) all nested (.text k.tag) = some k := by
  cases k <;> rfl

end Kind

namespace Target

/-- The styles in a target. -/
def styleSteps : Target τ → List (StyleStep τ)
  | style s => [s]
  | keyframes steps => steps

/-- A target is read back: its kind is a tag, and its fields stand beside it. -/
theorem ofJson?_toJson {t : Target τ} (h : ∀ s ∈ t.styleSteps, s.Writable) :
    ofJson? t.toJson = some t := by
  cases t with
  | style s =>
    -- no field of a style has the name of the tag
    have hkey : "type" ∉ s.fields.map Prod.fst := by simp [StyleStep.fields]
    have htag := Json.tagged?_present (.text Kind.style.tag) s.fields hkey
    have hs : s.Writable := h s (List.mem_singleton_self s)
    rw [toJson, StyleStep.members_eq, ofJson?, Kind.member, htag]
    show (StyleStep.ofJson? _).map style = _
    rw [StyleStep.ofJson?_fields hs]
    rfl
  | keyframes steps =>
    have hkey : "type" ∉ (StyleStep.stepFields steps).map Prod.fst := by
      simp [StyleStep.stepFields]
    have htag := Json.tagged?_present (.text Kind.keyframes.tag) (StyleStep.stepFields steps) hkey
    rw [toJson, ofJson?, Kind.member]
    show ((Json.object (("type", Json.text Kind.keyframes.tag) ::
      Json.present (StyleStep.stepFields steps))).tagged? "type" >>= _) = _
    rw [htag]
    show (StyleStep.steps? _).map keyframes = _
    have hsteps : ∀ step ∈ steps, step.Writable := h
    rw [StyleStep.steps?_fields hsteps]
    rfl

theorem isReadable_toJson (t : Target τ) : t.toJson.isReadable = true := by
  cases t with
  | style s =>
    have hs := Json.isReadable_object_present.2 s.isReadable_fields
    rw [Json.isReadable_object] at hs
    rw [toJson, StyleStep.members_eq, Json.isReadable_object, List.forall_mem_cons]
    exact ⟨rfl, hs⟩
  | keyframes steps =>
    simp [toJson, Kind.member, StyleStep.stepMembers, StyleStep.isReadable_toJson]

end Target

namespace Selection

/-- The fields of a query that say which elements it is about. -/
def fields (s : Selection) : List (String × Option (Json τ)) :=
  [("selector", some (.text s.selector)), ("original_selector", s.written.map .text),
    ("limit", some (.whole s.limit.toInt)), ("optional", some (.bool s.optional)),
    ("include_self", some (.bool s.includeSelf))]

omit [Quantity τ] in
theorem members_eq (s : Selection) : s.members = Json.present (s.fields (τ := τ)) := by
  obtain ⟨selector, written, limit, optional, includeSelf⟩ := s
  cases written <;> rfl

omit [Quantity τ] in
/-- A limit is within the bounds that the reader allows. -/
theorem limit?_toInt (n : Int32) : limit? (.whole n.toInt : Json τ) = some n := by
  have hlow : -0x80000000 ≤ n.toInt := n.le_toInt
  have hhigh : n.toInt ≤ 0x7FFFFFFF := Int.le_of_lt_add_one n.toInt_lt
  rw [limit?, Json.wholeIn?, if_pos ⟨hlow, hhigh⟩, Option.map_some, Int32.ofInt_toInt]

end Selection

/-! ### What is in a node -/

namespace Transition

/-- The animation of a transition. -/
def animation : Transition τ → Animation τ
  | .mk _ animation _ => animation

/-- The options of a transition. -/
def options : Transition τ → Option (Options τ)
  | .mk _ _ options => options

/-- The fields of a transition. -/
def fields : Transition τ → List (String × Option (Json τ))
  | .mk expression animation options =>
    [("expr", some (.text expression)), ("animation", some animation.toJson),
      ("options", options.map Options.toJson)]

theorem members_eq (t : Transition τ) : Animation.transitionMembers t = Json.present t.fields := by
  cases t with
  | mk expression animation options =>
    rw [Animation.transitionMembers, Options.member_eq]
    rfl

theorem isReadable_fields {t : Transition τ} (h : t.animation.toJson.isReadable = true) :
    ∀ field ∈ t.fields, ∀ value ∈ field.2, value.isReadable = true := by
  cases t with
  | mk expression animation options =>
    have hanimation : animation.toJson.isReadable = true := h
    simp [fields, hanimation]

/-- A transition is read back if its animation is. -/
theorem readWith?_fields {node? : Json τ → Option (Animation τ)} {t : Transition τ}
    (hnode : node? t.animation.toJson = some t.animation)
    (hoptions : ∀ o ∈ t.options, AllFinite o.numbers) :
    readWith? node? (.object (Json.present t.fields)) = some t := by
  cases t with
  | mk expression animation options =>
    have hfields : (Json.object (Json.present (mk expression animation options).fields)).fields?
        ["expr", "animation", "options"] =
        some [some (.text expression), some animation.toJson, options.map Options.toJson] :=
      Json.fields?_present rfl (by decide)
    have hanimation : node? animation.toJson = some animation := hnode
    have hoptions : Options.field? (options.map Options.toJson) = some options :=
      Options.field?_map hoptions
    rw [readWith?, hfields]
    simp [Json.required, Json.text?, hanimation, hoptions]

end Transition

namespace Animation

/-- The nodes directly in a node, those in its transitions included. -/
def children : Animation τ → List (Animation τ)
  | trigger _ _ transitions => transitions.map Transition.animation
  | transition t => [t.animation]
  | sequence steps _ | group steps _ => steps
  | reference animation _ | animateRef animation _ _ | query _ animation _
  | stagger _ animation => [animation]
  | _ => []

/-- The options that stand in a node itself. -/
def ownOptions : Animation τ → List (Options τ)
  | trigger _ _ transitions => transitions.flatMap fun t => t.options.toList
  | transition t => t.options.toList
  | sequence _ options | group _ options | reference _ options | animateChild options
  | query _ _ options => options.toList
  | animateRef _ defaults options => defaults.toList ++ options.toList
  | _ => []

/-- The timings that stand in a node itself. -/
def ownTimings : Animation τ → List (Timing τ)
  | animate timing _ | stagger timing _ => [timing]
  | _ => []

/-- The styles that stand in a node itself. -/
def ownStyles : Animation τ → List (StyleStep τ)
  | trigger _ states _ => states.map NamedState.style
  | state s => [s.style]
  | animate _ target => target.styleSteps
  | keyframes steps => steps
  | style step => [step]
  | _ => []

/-- Whether what stands in a node itself can be written down. -/
structure Writable (node : Animation τ) : Prop where
  options : ∀ o ∈ node.ownOptions, AllFinite o.numbers
  timings : ∀ t ∈ node.ownTimings, AllFinite t.numbers
  styles : ∀ s ∈ node.ownStyles, s.Writable

/-! ### Nodes as records -/

/-- The fields of a node that has steps. -/
def stepFields (steps : List (Animation τ)) (options : Option (Options τ)) :
    List (String × Option (Json τ)) :=
  [("steps", some (.array (steps.map toJson))), ("options", options.map Options.toJson)]

/-- The fields of a node that has an animation. -/
def referenceFields (animation : Animation τ) (options : Option (Options τ)) :
    List (String × Option (Json τ)) :=
  [("animation", some animation.toJson), ("options", options.map Options.toJson)]

/-- The fields of a node. -/
def fields : Animation τ → List (String × Option (Json τ))
  | trigger name states transitions =>
    [("name", some (.text name)),
      ("states", some (.array (states.map fun s => .object (Json.present s.fields)))),
      ("transitions", some (.array (transitions.map fun t => .object (Json.present t.fields))))]
  | state s => s.fields
  | transition t => t.fields
  | sequence steps options | group steps options => stepFields steps options
  | animate timing target => [("timings", some timing.toJson), ("style", some target.toJson)]
  | keyframes steps => StyleStep.stepFields steps
  | style s => s.fields
  | reference animation options => referenceFields animation options
  | animateChild options => [("options", options.map Options.toJson)]
  -- the reference stands inside the use of it as a record of its own
  | animateRef animation defaults options =>
    [("animation", some (.object (Json.present (referenceFields animation defaults)))),
      ("options", options.map Options.toJson)]
  | query selection animation options => selection.fields ++ referenceFields animation options
  | stagger timing animation =>
    [("timings", some timing.toJson), ("animation", some animation.toJson)]

theorem stepsToJson_eq_map (steps : List (Animation τ)) : stepsToJson steps = steps.map toJson := by
  induction steps with
  | nil => rfl
  | cons step steps ih => rw [stepsToJson, ih, List.map_cons]

/-- Transitions are written as records without a tag. -/
theorem transitionsToJson_eq_map (transitions : List (Transition τ)) :
    transitionsToJson transitions =
      transitions.map fun t => .object (Json.present t.fields) := by
  induction transitions with
  | nil => rfl
  | cons t ts ih => rw [transitionsToJson, ih, Transition.members_eq, List.map_cons]

/-- A node is written as the record of its fields, tagged by its kind. -/
theorem toJson_eq (node : Animation τ) :
    node.toJson = .object (Kind.member node.kind :: Json.present node.fields) := by
  cases node with
  | trigger name states transitions =>
    rw [toJson, transitionsToJson_eq_map]
    rfl
  | state s => rw [toJson]; rfl
  | transition t => rw [toJson, Transition.members_eq]; rfl
  | sequence steps options => rw [toJson, stepsToJson_eq_map, Options.member_eq]; rfl
  | group steps options => rw [toJson, stepsToJson_eq_map, Options.member_eq]; rfl
  | animate timing target => rw [toJson]; rfl
  | keyframes steps => rw [toJson]; rfl
  | style s => rw [toJson, StyleStep.members_eq]; rfl
  | reference animation options => rw [toJson, Options.member_eq]; rfl
  | animateChild options => rw [toJson, Options.member_eq]; rfl
  | animateRef animation defaults options =>
    rw [toJson, Options.member_eq, Options.member_eq]
    rfl
  | query selection animation options =>
    rw [toJson, Options.member_eq, Selection.members_eq, fields, Json.present_append]
    rfl
  | stagger timing animation => rw [toJson]; rfl

/-- No field has the name of the tag. -/
theorem not_mem_keys_fields (node : Animation τ) : "type" ∉ node.fields.map Prod.fst := by
  cases node with
  | transition t =>
    cases t
    simp [fields, Transition.fields]
  | _ =>
    simp [fields, stepFields, referenceFields, NamedState.fields, StyleStep.fields,
      StyleStep.stepFields, Selection.fields]

/-! ### Depth -/

/-- What stands in a field is less deep than the node. -/
theorem depth_lt_of_mem_fields {node : Animation τ} (key : String) {value : Json τ}
    (h : (key, some value) ∈ node.fields) : value.depth < node.toJson.depth := by
  rw [toJson_eq]
  exact Json.depth_lt_object (List.mem_cons_of_mem _ (Json.mem_present.2 h))

/-- A step is an item of an array in a field, so it is less deep by two. -/
theorem depth_lt_of_mem_stepFields {steps : List (Animation τ)} {options : Option (Options τ)}
    {node step : Animation τ} (hfields : node.fields = stepFields steps options)
    (h : step ∈ steps) : step.toJson.depth < node.toJson.depth := by
  have harray : ("steps", some (.array (steps.map toJson))) ∈ node.fields := by
    simp [hfields, stepFields]
  exact Nat.lt_trans (Json.depth_lt_array (List.mem_map_of_mem h)) (depth_lt_of_mem_fields _ harray)

/-- The nodes in a node are less deep. -/
theorem depth_lt_of_mem_children {node child : Animation τ} (h : child ∈ node.children) :
    child.toJson.depth < node.toJson.depth := by
  cases node with
  | trigger name states transitions =>
    obtain ⟨⟨expression, animation, options⟩, ht, rfl⟩ := List.mem_map.1 h
    -- three levels down: the field, its array, and the record of the transition
    have hanimation : animation.toJson.depth <
        (Json.object (Json.present (Transition.mk expression animation options).fields)).depth :=
      Json.depth_lt_object_present "animation" (by simp [Transition.fields])
    have hitem := Json.depth_lt_array (List.mem_map_of_mem
      (f := fun t => Json.object (Json.present t.fields)) ht)
    have harray : ("transitions", some (.array (transitions.map fun t =>
        .object (Json.present t.fields)))) ∈ (trigger name states transitions).fields := by
      simp [fields]
    exact (hanimation.trans hitem).trans (depth_lt_of_mem_fields _ harray)
  | transition t =>
    obtain ⟨expression, animation, options⟩ := t
    obtain rfl := List.mem_singleton.1 h
    exact depth_lt_of_mem_fields "animation" (by simp [fields, Transition.fields])
  | sequence steps options => exact depth_lt_of_mem_stepFields rfl h
  | group steps options => exact depth_lt_of_mem_stepFields rfl h
  | animateRef animation defaults options =>
    obtain rfl := List.mem_singleton.1 h
    -- two levels down, through the record of the reference
    have hinner : child.toJson.depth <
        (Json.object (Json.present (referenceFields child defaults))).depth :=
      Json.depth_lt_object_present "animation" (by simp [referenceFields])
    exact hinner.trans (depth_lt_of_mem_fields "animation" (by simp [fields]))
  | reference animation options =>
    obtain rfl := List.mem_singleton.1 h
    exact depth_lt_of_mem_fields "animation" (by simp [fields, referenceFields])
  | query selection animation options =>
    obtain rfl := List.mem_singleton.1 h
    exact depth_lt_of_mem_fields "animation" (by simp [fields, referenceFields])
  | stagger timing animation =>
    obtain rfl := List.mem_singleton.1 h
    exact depth_lt_of_mem_fields "animation" (by simp [fields])
  | _ => cases h

/-! ### Readability -/

theorem isReadable_stepFields {steps : List (Animation τ)}
    (h : ∀ step ∈ steps, step.toJson.isReadable = true) (options : Option (Options τ)) :
    ∀ field ∈ stepFields steps options, ∀ value ∈ field.2, value.isReadable = true := by
  simpa [stepFields] using h

theorem isReadable_referenceFields {animation : Animation τ}
    (h : animation.toJson.isReadable = true) (options : Option (Options τ)) :
    ∀ field ∈ referenceFields animation options, ∀ value ∈ field.2, value.isReadable = true := by
  simpa [referenceFields] using h

/-- The fields of a node are readable if the nodes in it are. -/
theorem isReadable_fields {node : Animation τ}
    (h : ∀ child ∈ node.children, child.toJson.isReadable = true) :
    ∀ field ∈ node.fields, ∀ value ∈ field.2, value.isReadable = true := by
  cases node with
  | trigger name states transitions =>
    have hstates : ∀ s ∈ states, (Json.object (Json.present s.fields)).isReadable = true :=
      fun s _ => Json.isReadable_object_present.2 s.isReadable_fields
    have htransitions : ∀ t ∈ transitions,
        (Json.object (Json.present t.fields)).isReadable = true := fun t ht =>
      Json.isReadable_object_present.2 (Transition.isReadable_fields (h _ (List.mem_map_of_mem ht)))
    simp only [fields, List.forall_mem_cons, Option.mem_some_iff, forall_eq', Json.isReadable_array,
      List.forall_mem_map]
    exact ⟨rfl, hstates, htransitions, List.forall_mem_nil _⟩
  | state s => exact s.isReadable_fields
  | transition t => exact Transition.isReadable_fields (h _ (List.mem_singleton_self _))
  | sequence steps options => exact isReadable_stepFields h options
  | group steps options => exact isReadable_stepFields h options
  | animate timing target => simp [fields, timing.isReadable_toJson, target.isReadable_toJson]
  | keyframes steps => simp [fields, StyleStep.stepFields, StyleStep.isReadable_toJson]
  | style s => exact s.isReadable_fields
  | reference animation options =>
    exact isReadable_referenceFields (h _ (List.mem_singleton_self _)) options
  | animateChild options => simp [fields]
  | animateRef animation defaults options =>
    have hinner := Json.isReadable_object_present.2
      (isReadable_referenceFields (h _ (List.mem_singleton_self _)) defaults)
    simp [fields, hinner]
  | query selection animation options =>
    -- a query has the fields of its selection and those of a reference
    refine List.forall_mem_append.2 ⟨by simp [Selection.fields], ?_⟩
    exact isReadable_referenceFields (h _ (List.mem_singleton_self _)) options
  | stagger timing animation =>
    simp [fields, timing.isReadable_toJson, h _ (List.mem_singleton_self _)]

/-- What is written is always readable. -/
theorem isReadable_toJson (node : Animation τ) : node.toJson.isReadable = true := by
  -- by recursion on the depth, since the nodes in transitions are not below any constructor of a
  -- tree
  have hchildren : ∀ child ∈ node.children, child.toJson.isReadable = true := fun child hchild =>
    have := depth_lt_of_mem_children hchild
    child.isReadable_toJson
  have hfields := Json.isReadable_object_present.2 (isReadable_fields hchildren)
  rw [Json.isReadable_object] at hfields
  rw [toJson_eq, Json.isReadable_object, List.forall_mem_cons]
  exact ⟨rfl, hfields⟩
termination_by node.toJson.depth

/-! ### Reading -/

/-- The fields of a reference are read back if its animation is. -/
theorem referenceWith?_fields {node? : Json τ → Option (Animation τ)} {animation : Animation τ}
    {options : Option (Options τ)} (hnode : node? animation.toJson = some animation)
    (hoptions : ∀ o ∈ options, AllFinite o.numbers) :
    referenceWith? node? (.object (Json.present (referenceFields animation options))) =
      some (animation, options) := by
  have hfields : (Json.object (Json.present (referenceFields animation options))).fields?
      ["animation", "options"] =
      some [some animation.toJson, options.map Options.toJson] :=
    Json.fields?_present rfl (by decide)
  rw [referenceWith?, hfields]
  simp [Json.required, hnode, Options.field?_map hoptions]

/-- The fields of a node with steps are read back if the steps are. -/
theorem stepsWith?_fields {node? : Json τ → Option (Animation τ)} {steps : List (Animation τ)}
    {options : Option (Options τ)} (hnode : ∀ step ∈ steps, node? step.toJson = some step)
    (hoptions : ∀ o ∈ options, AllFinite o.numbers) :
    stepsWith? node? (.object (Json.present (stepFields steps options))) =
      some (steps, options) := by
  have hfields : (Json.object (Json.present (stepFields steps options))).fields?
      ["steps", "options"] =
      some [some (.array (steps.map toJson)), options.map Options.toJson] :=
    Json.fields?_present rfl (by decide)
  have hsteps : Json.list? node? (.array (steps.map toJson)) = some steps := by
    rw [Json.list?_map hnode, List.map_id']
  rw [stepsWith?, hfields]
  simp [Json.required, hsteps, Options.field?_map hoptions]

/-- The fields of a node are read back if the nodes in it are. -/
theorem fieldsWith?_fields {node? : Json τ → Option (Animation τ)} {node : Animation τ}
    (hnode : ∀ child ∈ node.children, node? child.toJson = some child) (h : node.Writable) :
    fieldsWith? node? node.kind (.object (Json.present node.fields)) = some node := by
  obtain ⟨hoptions, htimings, hstyles⟩ := h
  cases node with
  | trigger name states transitions =>
    have hfields : (Json.object (Json.present (trigger name states transitions).fields)).fields?
        ["name", "states", "transitions"] =
        some [some (.text name),
          some (.array (states.map fun s => .object (Json.present s.fields))),
          some (.array (transitions.map fun t => .object (Json.present t.fields)))] :=
      Json.fields?_present rfl (by decide)
    -- states hold no nodes, so they are read by themselves; transitions need the reader of nodes
    have hstates : Json.list? NamedState.ofJson?
        (.array (states.map fun s => .object (Json.present s.fields))) = some states := by
      rw [Json.list?_map fun s hs => NamedState.ofJson?_fields (hstyles _ (List.mem_map_of_mem hs)),
        List.map_id']
    have htransitions : Json.list? (Transition.readWith? node?)
        (.array (transitions.map fun t => .object (Json.present t.fields))) = some transitions := by
      rw [Json.list?_map fun t ht => Transition.readWith?_fields
        (hnode _ (List.mem_map_of_mem ht)) fun o ho =>
          hoptions o (List.mem_flatMap.2 ⟨t, ht, Option.mem_toList.2 ho⟩), List.map_id']
    rw [kind, fieldsWith?, hfields]
    simp [Json.required, Json.withDefault, Json.text?, hstates, htransitions]
  | state s =>
    show (NamedState.ofJson? _).map state = _
    rw [fields, NamedState.ofJson?_fields (hstyles _ (List.mem_singleton_self _)), Option.map_some]
  | transition t =>
    show (Transition.readWith? node? _).map transition = _
    rw [fields, Transition.readWith?_fields (hnode _ (List.mem_singleton_self _)) fun o ho =>
      hoptions o (Option.mem_toList.2 ho), Option.map_some]
  | sequence steps options =>
    show (stepsWith? node? _).map _ = _
    have hsteps : ∀ step ∈ steps, node? step.toJson = some step := hnode
    rw [fields, stepsWith?_fields hsteps fun o ho => hoptions o (Option.mem_toList.2 ho)]
    rfl
  | group steps options =>
    show (stepsWith? node? _).map _ = _
    have hsteps : ∀ step ∈ steps, node? step.toJson = some step := hnode
    rw [fields, stepsWith?_fields hsteps fun o ho => hoptions o (Option.mem_toList.2 ho)]
    rfl
  | animate timing target =>
    have hfields : (Json.object (Json.present (animate timing target).fields)).fields?
        ["timings", "style"] = some [some timing.toJson, some target.toJson] :=
      Json.fields?_present rfl (by decide)
    rw [kind, fieldsWith?, hfields]
    simp [Json.required, Json.withDefault,
      Timing.ofJson?_toJson (htimings timing (List.mem_singleton_self _)),
      Target.ofJson?_toJson hstyles]
  | keyframes steps =>
    show (StyleStep.steps? _).map keyframes = _
    have hsteps : ∀ step ∈ steps, step.Writable := hstyles
    rw [fields, StyleStep.steps?_fields hsteps, Option.map_some]
  | style s =>
    show (StyleStep.ofJson? _).map style = _
    rw [fields, StyleStep.ofJson?_fields (hstyles s (List.mem_singleton_self _)), Option.map_some]
  | reference animation options =>
    show (referenceWith? node? _).map _ = _
    rw [fields, referenceWith?_fields (hnode _ (List.mem_singleton_self _)) fun o ho =>
      hoptions o (Option.mem_toList.2 ho)]
    rfl
  | animateChild options =>
    have hfields : (Json.object (Json.present (animateChild options).fields)).fields?
        ["options"] = some [options.map Options.toJson] :=
      Json.fields?_present rfl (by decide)
    rw [kind, fieldsWith?, hfields]
    simp [Options.field?_map fun o ho => hoptions o (Option.mem_toList.2 ho)]
  | animateRef animation defaults options =>
    have hfields : (Json.object (Json.present
        (animateRef animation defaults options).fields)).fields? ["animation", "options"] =
        some [some (.object (Json.present (referenceFields animation defaults))),
          options.map Options.toJson] :=
      Json.fields?_present rfl (by decide)
    -- the defaults come with the reference, the options with its use
    have hreference := referenceWith?_fields (hnode _ (List.mem_singleton_self _)) fun o ho =>
      hoptions o (List.mem_append_left _ (Option.mem_toList.2 ho))
    have hoverrides := Options.field?_map fun o ho =>
      hoptions o (List.mem_append_right _ (Option.mem_toList.2 ho))
    rw [kind, fieldsWith?, hfields]
    simp [Json.required, hreference, hoverrides]
  | query selection animation options =>
    have hfields : (Json.object (Json.present (query selection animation options).fields)).fields?
        ["selector", "original_selector", "limit", "optional", "include_self", "animation",
          "options"] =
        some [some (.text selection.selector), selection.written.map .text,
          some (.whole selection.limit.toInt), some (.bool selection.optional),
          some (.bool selection.includeSelf), some animation.toJson,
          options.map Options.toJson] :=
      Json.fields?_present rfl (by decide)
    rw [kind, fieldsWith?, hfields]
    simp [Json.required, Json.withDefault, Json.text?, Json.bool?, Json.optional_text,
      Selection.limit?_toInt, hnode _ (List.mem_singleton_self _),
      Options.field?_map fun o ho => hoptions o (Option.mem_toList.2 ho)]
  | stagger timing animation =>
    have hfields : (Json.object (Json.present (stagger timing animation).fields)).fields?
        ["timings", "animation"] = some [some timing.toJson, some animation.toJson] :=
      Json.fields?_present rfl (by decide)
    rw [kind, fieldsWith?, hfields]
    simp [Json.required, Timing.ofJson?_toJson (htimings timing (List.mem_singleton_self _)),
      hnode _ (List.mem_singleton_self _)]

/-! ### Whole trees -/

mutual

/-- All nodes of a tree, itself and those that are never compiled included. -/
def subtrees : Animation τ → List (Animation τ)
  | trigger name states transitions =>
    trigger name states transitions :: subtreesOfTransitions transitions
  | transition t => transition t :: subtreesOfTransition t
  | sequence steps options => sequence steps options :: subtreesOf steps
  | group steps options => group steps options :: subtreesOf steps
  | reference animation options => reference animation options :: animation.subtrees
  | animateRef animation defaults options =>
    animateRef animation defaults options :: animation.subtrees
  | query selection animation options => query selection animation options :: animation.subtrees
  | stagger timing animation => stagger timing animation :: animation.subtrees
  | leaf => [leaf]

/-- The same for a transition. -/
def subtreesOfTransition : Transition τ → List (Animation τ)
  | .mk _ animation _ => animation.subtrees

/-- The same for several transitions. -/
def subtreesOfTransitions : List (Transition τ) → List (Animation τ)
  | [] => []
  | t :: ts => subtreesOfTransition t ++ subtreesOfTransitions ts

/-- The same for several trees. -/
def subtreesOf : List (Animation τ) → List (Animation τ)
  | [] => []
  | step :: steps => step.subtrees ++ subtreesOf steps

end

omit [Quantity τ] in
theorem subtreesOfTransition_eq (t : Transition τ) :
    subtreesOfTransition t = t.animation.subtrees := by
  cases t
  rfl

omit [Quantity τ] in
/-- The nodes in transitions are those of their animations. -/
theorem subtreesOfTransitions_eq_flatMap (ts : List (Transition τ)) :
    subtreesOfTransitions ts = (ts.map Transition.animation).flatMap subtrees := by
  induction ts with
  | nil => rfl
  | cons t ts ih =>
    rw [subtreesOfTransitions, ih, subtreesOfTransition_eq, List.map_cons, List.flatMap_cons]

omit [Quantity τ] in
/-- The nodes in steps are those of each of them. -/
theorem subtreesOf_eq_flatMap (steps : List (Animation τ)) :
    subtreesOf steps = steps.flatMap subtrees := by
  induction steps with
  | nil => rfl
  | cons step steps ih => rw [subtreesOf, ih, List.flatMap_cons]

omit [Quantity τ] in
/-- The nodes of a tree are the tree and the nodes of what is directly in it. -/
theorem subtrees_eq (tree : Animation τ) :
    tree.subtrees = tree :: tree.children.flatMap subtrees := by
  cases tree with
  | trigger name states transitions => rw [subtrees, subtreesOfTransitions_eq_flatMap]; rfl
  | transition t => simp [subtrees, subtreesOfTransition_eq, children]
  | sequence steps options => rw [subtrees, subtreesOf_eq_flatMap]; rfl
  | group steps options => rw [subtrees, subtreesOf_eq_flatMap]; rfl
  | _ => simp [subtrees, children]

/-- A tree is read back with any bound that its depth keeps to. -/
theorem read?_toJson {tree : Animation τ} (h : ∀ node ∈ tree.subtrees, node.Writable) {fuel : Nat}
    (hdepth : tree.toJson.depth ≤ fuel) (nested : Bool) :
    read? fuel nested tree.toJson = some tree := by
  -- a node needs one more than the nodes in it, since they are less deep
  induction fuel generalizing tree nested with
  | zero =>
    -- no node fits into no depth at all
    rw [toJson_eq, Json.depth] at hdepth
    cases hdepth
  | succ fuel ih =>
    rw [subtrees_eq, List.forall_mem_cons] at h
    have hchildren : ∀ child ∈ tree.children, read? fuel true child.toJson = some child := by
      intro child hchild
      refine ih (fun node hnode => h.2 node (List.mem_flatMap.2 ⟨child, hchild, hnode⟩)) ?_ true
      exact Nat.le_of_lt_succ (Nat.lt_of_lt_of_le (depth_lt_of_mem_children hchild) hdepth)
    -- the tag is found first, and selects how the fields are read
    have htag := Json.tagged?_present (.text tree.kind.tag) _ tree.not_mem_keys_fields
    rw [toJson_eq, read?, Kind.member, htag]
    show (Kind.ofTag? Kind.all nested (.text tree.kind.tag) >>= fun kind =>
      fieldsWith? (read? fuel true) kind _) = _
    rw [Kind.ofTag?_tag]
    exact fieldsWith?_fields hchildren h.1

/-- The numbers in a tree. -/
def numbers (tree : Animation τ) : List τ :=
  tree.subtrees.flatMap fun node => node.ownOptions.flatMap Options.numbers ++
    node.ownTimings.flatMap Timing.numbers ++ node.ownStyles.flatMap StyleStep.numbers

/-- The style values in a tree. -/
def styleValues (tree : Animation τ) : List (StyleValue τ) :=
  tree.subtrees.flatMap fun node => node.ownStyles.flatMap StyleStep.styleValues

/-- What holds of all numbers and style values of a tree holds of those of each of its nodes. -/
theorem writable_of_mem_subtrees {tree : Animation τ} (hfinite : AllFinite tree.numbers)
    (hfree : ∀ v ∈ tree.styleValues, ¬v.Reserved) : ∀ node ∈ tree.subtrees, node.Writable := by
  intro node hnode
  have hnumbers := allFinite_flatMap.1 hfinite node hnode
  simp only [Quantity.allFinite_append, allFinite_flatMap] at hnumbers
  obtain ⟨⟨hoptions, htimings⟩, hstyles⟩ := hnumbers
  exact ⟨hoptions, htimings, fun s hs => ⟨hstyles s hs, fun v hv =>
    hfree v (List.mem_flatMap.2 ⟨node, hnode, List.mem_flatMap.2 ⟨s, hs, hv⟩⟩)⟩⟩

/-- A tree whose numbers are finite, and in which no literal has a text that is kept for a
placeholder, is read back from its JSON form as it was. -/
theorem ofJson?_toJson_tree {tree : Animation τ} (hfinite : AllFinite tree.numbers)
    (hfree : ∀ v ∈ tree.styleValues, ¬v.Reserved) : ofJson? tree.toJson = some tree := by
  rw [ofJson?, if_pos tree.isReadable_toJson]
  exact read?_toJson (writable_of_mem_subtrees hfinite hfree) (Nat.le_refl _) false

/-- A tree with a node of every kind, both forms of timing and both placeholders. -/
def everyKind : Animation ℚ :=
  .trigger "open" [⟨"closed", .ofEntries [("height", .text "*"), ("width", .text "!")]⟩]
    [.mk "* => open" (.sequence [
        .state ⟨"open", ⟨[.wildcard, .values ∅], some "ease", none⟩⟩,
        .transition (.mk "open => *" (.reference (.style (.ofEntries [("top", .number 1)]))
          (some ⟨some (.number 5), some (.text "1s"), some (.ofList [("x", .text "*")])⟩)) none),
        .group [.keyframes [.atOffset 0 [("a", .number 0)], .atOffset 1 [("a", .text "{{x}}")]],
          .animateChild (some .none)] none,
        .query (.ofWritten ":self, .item") (.stagger (.expression "100ms")
          (.animate (.fixed ⟨100, 20, some "linear"⟩) (.keyframes [.wildcard]))) none,
        .animateRef (.animate (.ofDuration 200) (.style .blank)) none (some .none)]
      (some ⟨none, none, none⟩)) none]

/-- It is read back as it was. -/
theorem ofJson?_toJson_tree_everyKind :
    AllFinite everyKind.numbers ∧ (∀ v ∈ everyKind.styleValues, ¬v.Reserved) ∧
      ofJson? everyKind.toJson = some everyKind := by
  have hfinite : AllFinite everyKind.numbers := fun _ _ => rfl
  have hfree : ∀ v ∈ everyKind.styleValues, ¬v.Reserved := by decide +kernel
  exact ⟨hfinite, hfree, ofJson?_toJson_tree hfinite hfree⟩

end Animation

end Choreography
