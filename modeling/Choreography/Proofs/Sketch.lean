/-
Choreography/Proofs/Sketch.lean

A run without its clocks.

Which texts are interpolated with which parameters, and what is reported, depends on the tree,
on the answers of the host, and on the names of the properties that are known of elements,
since a wildcard stands for these.  It does not depend on times or on the values of styles.  A
`Sketch` keeps what does matter, and what has been interpolated so far as a list of `Event`s.

A sketch `Depicts` a walk if it agrees with it.  Taking a step in the walk and drawing it in
the sketch then go together: the lemmas of this module say so for the elementary steps.  The
names are what takes an argument.  Taking note of what another timeline wrote adds none,
because the timelines are those of one element, and so whatever one of them wrote is shared by
the other (`Score.keys_known_merge`).
-/
import Choreography.Proofs.Integrity
import Choreography.Proofs.Stock

namespace Choreography

variable {τ : Type}

/-! ### Events -/

/-- Something that is interpolated, with the parameters in force, or else reported. -/
inductive Event (τ : Type) where
  | style (value : StyleValue τ) (params : Params τ)
  | scalar (value : Scalar τ) (params : Params τ)
  | timing (text : String) (allowNegative : Bool) (params : Params τ)
  | report (d : Diagnostic)

namespace Event

variable [Quantity τ]

/-- What is reported of an event. -/
def reports : Event τ → List Diagnostic
  | style value params => (value.interpolate params).2
  | scalar value params => (value.interpolate params).2
  | timing text allowNegative params =>
    let (text, reports) := (Template.ofText text).render params
    reports ++ (Timings.read (τ := τ) text allowNegative).2
  | report d => [d]

/-- All that is reported of several events. -/
def allReports (events : List (Event τ)) : List Diagnostic := events.flatMap reports

theorem allReports_append (xs ys : List (Event τ)) :
    allReports (xs ++ ys) = allReports xs ++ allReports ys :=
  List.flatMap_append

@[simp] theorem allReports_map_report (ds : List Diagnostic) :
    allReports (ds.map report : List (Event τ)) = ds := by
  rw [allReports, List.flatMap_map]
  exact List.flatMap_singleton' ds

/-- A value that came of an event, or was there before. -/
def Made (base : StyleValue τ → Prop) (events : List (Event τ)) (v : StyleValue τ) : Prop :=
  base v ∨ ∃ value params, style value params ∈ events ∧ (value.interpolate params).1 = v

theorem Made.mono {base : StyleValue τ → Prop} {xs ys : List (Event τ)} {v : StyleValue τ}
    (h : Made base xs v) (hsub : xs ⊆ ys) : Made base ys v :=
  h.imp_right fun ⟨value, params, hmem, hv⟩ => ⟨value, params, hsub hmem, hv⟩

end Event

/-! ### Names -/

/-- Adds names that are not there yet. -/
def addNames (names more : List String) : List String :=
  more.foldl (fun names name => if name ∈ names then names else names ++ [name]) names

@[simp] theorem addNames_nil (names : List String) : addNames names [] = names := rfl

/-- Inserting a value adds its name, at the end if it is new. -/
theorem OrderedMap.keys_insert {α : Type} (m : OrderedMap String α) (name : String) (value : α) :
    (m.insert name value).keys = addNames m.keys [name] := by
  show _ = if name ∈ m.keys then m.keys else m.keys ++ [name]
  split
  · next h => exact OrderedMap.keys_insert_of_mem value h
  · next h =>
    rw [OrderedMap.keys, OrderedMap.entries_insert_of_notMem value h, List.map_append]
    rfl

/-- The values that style entries stand for, where properties with given names are known. -/
def expand (names : List String) (entries : List (StyleEntry τ)) : StyleMap τ :=
  .ofList <| entries.flatMap fun
    | .wildcard => names.map fun property => (property, .auto)
    | .values values => values.entries

namespace Scene

/-- What entries stand for depends on the names that are known, and not on the values. -/
theorem flatten_eq_expand (known : StyleMap τ) (entries : List (StyleEntry τ)) :
    flatten known entries = expand known.keys entries := by
  unfold flatten expand
  congr 2

variable [Quantity τ]

/-- Written properties become known, in the order in which they are written. -/
theorem keys_shared_writeAll (params : Params τ) (styles : List (String × StyleValue τ))
    (s : Scene τ) :
    (s.writeAll params styles).1.shared.keys = addNames s.shared.keys (styles.map Prod.fst) := by
  induction styles generalizing s with
  | nil => rfl
  | cons entry rest ih =>
    -- the backfill touches the timeline alone
    have hshared : ∀ value, (s.write entry.1 value).shared = s.shared.insert entry.1 value := by
      intro value
      unfold write backfill
      split <;> rfl
    show (Scene.writeAll params rest _).1.shared.keys = _
    rw [ih, hshared, OrderedMap.keys_insert]
    rfl

/-- Writing reports what the events of its values report. -/
theorem reports_writeAll (params : Params τ) (styles : List (String × StyleValue τ))
    (s : Scene τ) :
    (s.writeAll params styles).2 =
      Event.allReports (styles.map fun entry => Event.style entry.2 params) := by
  induction styles generalizing s with
  | nil => rfl
  | cons entry rest ih =>
    show _ ++ (Scene.writeAll params rest _).2 = _
    rw [ih]
    rfl

/-- A note about a known property adds no name. -/
theorem keys_shared_note {s : Scene τ} {property : String} (h : property ∈ s.shared.keys)
    (value : StyleValue τ) : (s.note property value).shared.keys = s.shared.keys :=
  OrderedMap.keys_insert_of_mem value h

/-- A snapshot writes nothing that is not shared. -/
theorem keys_shared_snapshot {s : Scene τ} (h : s.Consistent) :
    s.snapshot.shared.keys = s.shared.keys := by
  refine snapshot_induct (P := fun u => u.shared.keys = s.shared.keys) rfl
    fun u hu entry hentry => ?_
  -- what the branch knows is shared, and stays so along the way
  have hknown : entry.1 ∈ u.shared.keys := by
    rw [hu]
    exact h.known entry.1 (List.mem_map_of_mem hentry)
  exact (keys_shared_note (s := u.queue entry.1 entry.2) hknown _).trans hu

/-- Nor does a merge with a timeline that shares what it wrote. -/
theorem keys_shared_merge {s : Scene τ} {other : Timeline τ}
    (h : ∀ p ∈ other.summary.keys, p ∈ s.shared.keys) :
    (s.merge other).shared.keys = s.shared.keys := by
  refine merge_induct (P := fun u => u.shared.keys = s.shared.keys) rfl
    fun u hu entry hentry => ?_
  have hshared : entry.1 ∈ u.shared.keys := by
    rw [hu]
    exact h entry.1 (List.mem_map_of_mem hentry)
  exact (keys_shared_note hshared _).trans hu

end Scene

/-- A change that writes nothing. -/
def Change.Silent : Change τ → Prop
  | .write .. => False
  | _ => True

/-- The names that a change adds to what is shared. -/
def Change.adds (names : List String) : Change τ → List String
  | .write entries _ _ => (expand names entries).keys
  | _ => []

/-- A change makes known just the names that it writes. -/
theorem Scene.keys_shared_change [Quantity τ] {s : Scene τ} (h : s.Consistent) (c : Change τ) :
    (s.change c).shared.keys = addNames s.shared.keys (c.adds s.shared.keys) := by
  cases c with
  | delay time =>
    simp only [Scene.change, delayNextStep]
    split
    · split
      · rw [Scene.keys_shared_snapshot (h.forwardTo _)]
        exact congrArg OrderedMap.keys (Scene.shared_flush s)
      · exact congrArg OrderedMap.keys (Scene.shared_flush s)
    · rfl
  | write entries easing params =>
    show (Scene.writeAll params _ _).1.shared.keys = _
    rw [Scene.keys_shared_writeAll, Scene.flatten_eq_expand]
    rfl
  | moveTo time => exact congrArg OrderedMap.keys (Scene.shared_flush s)
  | flush => exact congrArg OrderedMap.keys (Scene.shared_flush s)
  | snapshot => exact Scene.keys_shared_snapshot h
  | _ => rfl

namespace Score

variable [Quantity τ] {s : Score τ}

/-- Putting a scene back tells the cell of its timeline, and no other, what became known. -/
theorem keys_known_put {id : TimelineId} {scene : Scene τ} {names : List String}
    (h : scene.shared.keys = addNames (s.scene id).shared.keys names) (lineage : Nat)
    (element : ElementId) :
    ((s.put id scene).known lineage element).keys =
      if (lineage, element) = s.cell id then addNames (s.known lineage element).keys names
      else (s.known lineage element).keys := by
  rw [known_put]
  show OrderedMap.keys (if (lineage, element) = s.cell id then _ else _) = _
  split
  · next hcell =>
    rw [h]
    show addNames (s.known (s.cell id).1 (s.cell id).2).keys names = _
    rw [← hcell]
  · rfl

theorem keys_known_edit {id : TimelineId} {f : Scene τ → Scene τ}
    (h : (f (s.scene id)).shared.keys = (s.scene id).shared.keys) (lineage : Nat)
    (element : ElementId) :
    ((s.edit id f).known lineage element).keys = (s.known lineage element).keys := by
  have hadds : (f (s.scene id)).shared.keys = addNames (s.scene id).shared.keys [] := h
  rw [edit, keys_known_put hadds]
  split <;> rfl

/-- Taking note of what another timeline of the element wrote adds no names. -/
theorem keys_known_merge (h : s.Consistent) {into source : TimelineId}
    (hsource : source < s.timelines.length) (hcell : s.cell source = s.cell into) (lineage : Nat)
    (element : ElementId) :
    ((s.merge into source).known lineage element).keys = (s.known lineage element).keys := by
  unfold merge
  split
  · rfl
  · refine keys_known_edit (Scene.keys_shared_merge fun p hp => ?_) lineage element
    -- both timelines look into one cell, so what the one wrote the other shares
    have hshared : (s.scene source).shared = (s.scene into).shared := by
      show s.known (s.cell source).1 (s.cell source).2 = s.known (s.cell into).1 (s.cell into).2
      rw [hcell]
    rw [← hshared]
    exact (h.scene source hsource).known p ((h.scene source hsource).summary p hp)

end Score

/-! ### Sketches -/

/-- What matters of a walk for what is interpolated in it. -/
structure Sketch (τ : Type) where
  element : ElementId
  params : Params τ
  /-- The names of the properties that are known of elements. -/
  names : ElementId → List String
  /-- Whether there is an animated step around. -/
  animated : Bool
  /-- Whether there is a scope around. -/
  nested : Bool
  events : List (Event τ)

namespace Sketch

/-- Adds events. -/
def log (events : List (Event τ)) (k : Sketch τ) : Sketch τ := { k with events := k.events ++ events }

/-- Adds diagnostics. -/
def report (ds : List Diagnostic) (k : Sketch τ) : Sketch τ := k.log (ds.map .report)

/-- Writes styles. -/
def write (entries : List (StyleEntry τ)) (k : Sketch τ) : Sketch τ :=
  let styles := expand (k.names k.element) entries
  { k with
    names := Function.update k.names k.element (addNames (k.names k.element) styles.keys)
    events := k.events ++ styles.entries.map fun entry => .style entry.2 k.params }

@[simp] theorem write_nil (k : Sketch τ) : k.write [] = k := by
  show ({ k with names := Function.update _ _ _, events := k.events ++ [] } : Sketch τ) = k
  rw [List.append_nil, show addNames (k.names k.element) (expand _ []).keys = k.names k.element
    from rfl, Function.update_eq_self]

/-- Sets whether there is an animated step around. -/
def withTimings (animated : Bool) (k : Sketch τ) : Sketch τ := { k with animated := animated }

variable [Quantity τ]

/-- The events of bringing parameters into force. -/
def paramEvents (keep : Bool) : List (String × Scalar τ) → Params τ → List (Event τ)
  | [], _ => []
  | (name, value) :: rest, params =>
    if keep && params.contains name then paramEvents keep rest params
    else .scalar value params :: paramEvents keep rest (params.insert name (value.interpolate params).1)

/-- Brings the parameters of options into force. -/
def update (keep : Bool) (options : Option (Options τ)) (k : Sketch τ) : Sketch τ :=
  match options with
  | none => k
  | some o =>
    let declared := (o.params.getD ∅).entries
    { k with params := (Overrides.addParams keep declared k.params).1 }.log
      (paramEvents keep declared k.params)

/-- Enters a scope. -/
def enter (options : Option (Options τ)) (element : ElementId) (k : Sketch τ) : Sketch τ :=
  { k with element := element, nested := true }.update false options

/-- Returns to a scope. -/
def leave (k inner : Sketch τ) : Sketch τ := { k with names := inner.names, events := inner.events }

/-- Reads a timing. -/
def readTiming (timing : Timing τ) (allowNegative : Bool) (k : Sketch τ) : Sketch τ :=
  match timing with
  | .fixed _ => k
  | .expression text => k.log [.timing text allowNegative k.params]

/-- Bringing parameters into force reports what its events do. -/
theorem allReports_paramEvents (keep : Bool) (declared : List (String × Scalar τ))
    (params : Params τ) :
    Event.allReports (paramEvents keep declared params) =
      (Overrides.addParams keep declared params).2 := by
  induction declared generalizing params with
  | nil => rfl
  | cons entry rest ih =>
    simp only [paramEvents, Overrides.addParams]
    split
    · exact ih params
    · rw [← ih]
      rfl

end Sketch

/-! ### Depicting -/

namespace Walk

variable [Quantity τ]

/-- A sketch shows what matters of a walk, and where the style values come from that were not
there before. -/
structure Depicts (base : StyleValue τ → Prop) (lineage : Nat) (k : Sketch τ) (w : Walk τ) :
    Prop where
  consistent : w.Consistent
  valid : w.Valid
  lineage_eq : w.timeline.lineage = lineage
  element : w.scope.element = k.element
  params : w.scope.options.params = k.params
  names : ∀ e, (w.score.known lineage e).keys = k.names e
  animated : w.scope.timings.isSome = k.animated
  nested : w.scope.outer.isSome = k.nested
  diagnostics : w.diagnostics = Event.allReports k.events
  stock : w.score.Stocked (Event.Made base k.events)

namespace Depicts

variable {base : StyleValue τ → Prop} {lineage : Nat} {k : Sketch τ} {w : Walk τ}

/-- The timeline of the scope shares with those of its element in the lineage. -/
theorem cell_eq (h : Depicts base lineage k w) : w.score.cell w.scope.timeline = (lineage, k.element) :=
  Prod.ext h.lineage_eq (h.valid.element.trans h.element)

/-- What is known of the scope apart from its element, timeline and parameters. -/
theorem rescope (h : Depicts base lineage k w) {scope : Scope τ} {animated nested : Bool}
    (he : scope.element = w.scope.element) (ht : scope.timeline = w.scope.timeline)
    (hp : scope.options.params = w.scope.options.params)
    (hanimated : scope.timings.isSome = animated) (hnested : scope.outer.isSome = nested) :
    Depicts base lineage { k with animated := animated, nested := nested }
      ({ w with scope := scope } : Walk τ) where
  consistent := h.consistent.of_eq rfl ht
  valid := h.valid.of_eq rfl ht he
  lineage_eq := by
    rw [← h.lineage_eq]
    show (w.score.timeline scope.timeline).lineage = _
    rw [ht]
    rfl
  element := he.trans h.element
  params := hp.trans h.params
  names := h.names
  animated := hanimated
  nested := hnested
  diagnostics := h.diagnostics
  stock := h.stock

theorem after (h : Depicts base lineage k w) (kind : Kind) : Depicts base lineage k (w.after kind) :=
  h.rescope rfl rfl rfl h.animated h.nested

theorem withTimings (h : Depicts base lineage k w) (timings : Option (Timings τ)) :
    Depicts base lineage (k.withTimings timings.isSome) (w.withTimings timings) :=
  h.rescope rfl rfl rfl rfl h.nested

theorem log (h : Depicts base lineage k w) {reports : List Diagnostic} {events : List (Event τ)}
    (hreports : reports = Event.allReports events) :
    Depicts base lineage (k.log events) (w.report reports) where
  consistent := h.consistent.of_eq rfl rfl
  valid := h.valid.of_eq rfl rfl rfl
  lineage_eq := h.lineage_eq
  element := h.element
  params := h.params
  names := h.names
  animated := h.animated
  nested := h.nested
  diagnostics := by
    rw [Sketch.log, Event.allReports_append, ← h.diagnostics, ← hreports]
    rfl
  -- values that were accounted for still are with more events
  stock := h.stock.mono fun _ hv => hv.mono (List.subset_append_left _ _)

theorem report (h : Depicts base lineage k w) (reports : List Diagnostic) :
    Depicts base lineage (k.report reports) (w.report reports) :=
  h.log (Event.allReports_map_report reports).symm

/-- Parameters come into force in the sketch as in the walk. -/
theorem update (h : Depicts base lineage k w) (keep : Bool) (options : Option (Options τ)) :
    Depicts base lineage (k.update keep options) (w.update keep options) := by
  cases options with
  | none =>
    have hreport := h.report []
    -- the walk reports nothing, and the sketch does not even do that
    rwa [Sketch.report, Sketch.log, List.map_nil, List.append_nil] at hreport
  | some o =>
    let declared := (o.params.getD ∅).entries
    let forced : Sketch τ := { k with params := (Overrides.addParams keep declared k.params).1 }
    let u : Walk τ :=
      { w with scope := { w.scope with options := (w.scope.options.update keep (some o)).1 } }
    -- the parameters first, then what was reported about them
    have hparams : Depicts base lineage forced u := by
      refine ⟨h.consistent.of_eq rfl rfl, h.valid.of_eq rfl rfl rfl, h.lineage_eq, h.element, ?_,
        h.names, h.animated, h.nested, h.diagnostics, h.stock⟩
      show (Overrides.addParams keep declared w.scope.options.params).1 = _
      rw [h.params]
    have hreports : (w.scope.options.update keep (some o)).2 =
        Event.allReports (Sketch.paramEvents keep declared k.params) := by
      rw [Sketch.allReports_paramEvents, ← h.params]
      rfl
    exact hparams.log hreports

/-- The reading of an expression is drawn as one event. -/
theorem readTiming (h : Depicts base lineage k w) (timing : Timing τ) (allowNegative : Bool) :
    Depicts base lineage (k.readTiming timing allowNegative) (w.readTiming timing allowNegative).2 := by
  cases timing with
  | fixed t => exact h
  | expression text =>
    -- first the reports of the template, then those of the reader
    have hreports : ((Template.ofText text).render w.scope.options.params).2 ++
        (Timings.read (τ := τ) ((Template.ofText text).render w.scope.options.params).1
          allowNegative).2 = Event.allReports [.timing text allowNegative k.params] := by
      rw [h.params, Event.allReports, List.flatMap_singleton]
      rfl
    have hwalk := h.log hreports
    simp only [Walk.readTiming]
    exact hwalk

/-! ### Operations -/

/-- An operation on the timeline of the scope that adds neither names nor values. -/
theorem perform (h : Depicts base lineage k w) (op : Operation τ)
    (hop : ∀ id, op.target? = some id → id = w.scope.timeline)
    (hnames : ∀ e, ((w.score.perform op).known lineage e).keys = k.names e)
    (hstock : (w.score.perform op).Stocked (Event.Made base k.events)) :
    Depicts base lineage k ({ w with score := w.score.perform op } : Walk τ) where
  consistent := h.consistent.perform _ hop
  -- an operation aimed at the timeline of the scope is an effect
  valid := (Effect.perform op hop).valid h.valid
  lineage_eq := (congrArg (fun o => o.1) (Score.owner_perform op h.valid.timeline)).trans h.lineage_eq
  element := h.element
  params := h.params
  names := hnames
  animated := h.animated
  nested := h.nested
  diagnostics := h.diagnostics
  stock := hstock

/-- A change of the timeline that writes nothing. -/
theorem change (h : Depicts base lineage k w) (hauto : base .auto) {c : Change τ}
    (hc : c.Silent) : Depicts base lineage k (w.edit (·.change c)) := by
  have hscene := h.consistent.score.scene _ h.valid.timeline
  have hadds : c.adds (w.score.scene w.scope.timeline).shared.keys = [] := by
    cases c with
    | write entries easing params => exact hc.elim
    | _ => rfl
  have hsupplies : c.Supplies (Event.Made base k.events)
      (w.score.scene w.scope.timeline).shared := by
    cases c with
    | write entries easing params => exact hc.elim
    | _ => trivial
  -- names and values are checked separately; both hold as the change writes nothing
  refine h.perform (.change w.scope.timeline c) (fun _ hid => (Option.some.inj hid).symm)
    (fun e => ?_) (h.stock.edit (f := (·.change c))
      ((h.stock.scene _).change (.inl hauto) hsupplies))
  refine (Score.keys_known_edit (f := (·.change c)) ?_ lineage e).trans (h.names e)
  rw [Scene.keys_shared_change hscene, hadds, addNames_nil]

theorem keys_shared (h : Depicts base lineage k w) :
    (w.score.scene w.scope.timeline).shared.keys = k.names k.element := by
  rw [← h.names]
  show (w.score.known (w.score.cell w.scope.timeline).1 (w.score.cell w.scope.timeline).2).keys = _
  rw [h.cell_eq]

/-- Writing makes the written names known for the element, and for no other. -/
theorem names_write (h : Depicts base lineage k w) (entries : List (StyleEntry τ))
    (easing : Option String) (params : Params τ) (e : ElementId) :
    ((w.score.edit w.scope.timeline (·.change (.write entries easing params))).known lineage
      e).keys = (k.write entries).names e := by
  have hadds : ((w.score.scene w.scope.timeline).change (.write entries easing params)).shared.keys =
      addNames (w.score.scene w.scope.timeline).shared.keys
        (expand (k.names k.element) entries).keys := by
    rw [Scene.keys_shared_change (h.consistent.score.scene _ h.valid.timeline), h.keys_shared]
    rfl
  refine (Score.keys_known_put hadds lineage e).trans ?_
  rw [h.cell_eq, h.names]
  show _ = Function.update k.names k.element _ e
  -- the lineage is that of the scope, so cells differ only in their elements
  by_cases he : e = k.element
  · subst he
    rw [if_pos rfl, Function.update_self]
  · rw [if_neg fun hpair => he (congrArg Prod.snd hpair), Function.update_of_ne he]

/-- Writing styles is drawn as the interpolation of each of their values. -/
theorem writeAt (h : Depicts base lineage k w) (hauto : base .auto) (entries : List (StyleEntry τ))
    (easing : Option String) :
    Depicts base lineage (k.write entries) (w.writeAt w.scope.timeline entries easing) := by
  let c : Change τ := .write entries easing w.scope.options.params
  let styles := expand (k.names k.element) entries
  let events : List (Event τ) := styles.entries.map fun entry => .style entry.2 k.params
  have hflatten : Scene.flatten (w.score.scene w.scope.timeline).shared entries = styles := by
    rw [Scene.flatten_eq_expand, h.keys_shared]
  have hevents : Depicts base lineage (k.log events) (w.report (Event.allReports events)) :=
    h.log rfl
  -- reporting and writing do not touch, so the reports may come first
  have hwalk : w.writeAt w.scope.timeline entries easing = { w.report (Event.allReports events) with
      score := w.score.perform (.change w.scope.timeline c) } := by
    have hreports : ((w.score.scene w.scope.timeline).setStyles entries easing
        w.scope.options.params).2 = Event.allReports events := by
      show (Scene.writeAll w.scope.options.params
        (Scene.flatten (w.score.scene w.scope.timeline).shared entries).entries _).2 = _
      rw [Scene.reports_writeAll, hflatten, h.params]
    rw [← hreports]
    rfl
  have hop : ∀ id, (Operation.change w.scope.timeline c).target? = some id →
      id = w.scope.timeline := fun _ hid => (Option.some.inj hid).symm
  rw [hwalk]
  refine ⟨(h.consistent.perform _ hop).of_eq rfl rfl,
    ((Effect.perform _ hop).valid h.valid).of_eq rfl rfl rfl,
    (congrArg (fun o => o.1) (Score.owner_perform _ h.valid.timeline)).trans h.lineage_eq, h.element,
    h.params, h.names_write entries easing _, h.animated, h.nested, hevents.diagnostics, ?_⟩
  refine hevents.stock.edit (f := (·.change c)) ((hevents.stock.scene _).change (.inl hauto) ?_)
  -- each value that is written came of the event that has just been logged for it
  intro entry hentry
  have hevent : Event.style entry.2 k.params ∈ events :=
    List.mem_map.2 ⟨entry, hflatten ▸ hentry, rfl⟩
  exact .inr ⟨entry.2, k.params, List.mem_append_right _ hevent, by rw [h.params]⟩

/-- A merge with a timeline of the element is not drawn. -/
theorem merge (h : Depicts base lineage k w) {source : TimelineId}
    (hsource : source < w.score.timelines.length)
    (hcell : w.score.cell source = (lineage, k.element)) :
    Depicts base lineage k ({ w with score := w.score.merge w.scope.timeline source } : Walk τ) :=
  h.perform (.merge w.scope.timeline source) (fun _ hid => (Option.some.inj hid).symm)
    (fun e => (Score.keys_known_merge h.consistent.score hsource (hcell.trans h.cell_eq.symm)
      lineage e).trans (h.names e)) (h.stock.merge _ _)

/-- Nor is a placed instruction whose values are accounted for. -/
theorem place (h : Depicts base lineage k w) {p : Placement τ}
    (hp : p.source.Stocked (Event.Made base k.events)) :
    Depicts base lineage k ({ w with score := w.score.place p } : Walk τ) :=
  h.perform (.place p) nofun h.names (h.stock.place hp)

/-! ### Scopes -/

/-- A scope on a new timeline of some element, which the parameters in force follow. -/
theorem fork (h : Depicts base lineage k w) (element : ElementId) (at? : Option τ)
    {scope : Scope τ} {animated nested : Bool} (he : scope.element = element)
    (ht : scope.timeline = w.score.timelines.length)
    (hp : scope.options.params = w.scope.options.params)
    (hanimated : scope.timings.isSome = animated) (hnested : scope.outer.isSome = nested) :
    Depicts base lineage { k with element := element, animated := animated, nested := nested }
      ({ w with score := (w.score.fork w.scope.timeline element at?).2, scope := scope } :
        Walk τ) where
  consistent := by
    refine ⟨?_, h.consistent.score.perform (.fork w.scope.timeline element at?)
      fun id hid => Option.some.inj hid ▸ h.valid.timeline⟩
    -- the new timeline is the last one
    show scope.timeline < _
    rw [ht, Score.length_timelines_fork]
    exact Nat.lt_succ_self _
  valid := by
    obtain ⟨lineage, own, hnew⟩ := Score.timeline_fork_self w.score w.scope.timeline element at?
    refine ⟨?_, ?_, Score.listed_perform (.fork w.scope.timeline element at?) h.valid.listed⟩
    · show scope.timeline < _
      rw [ht, Score.length_timelines_fork]
      exact Nat.lt_succ_self _
    · show ((w.score.fork w.scope.timeline element at?).2.timeline scope.timeline).element = _
      rw [ht, hnew]
      exact he.symm
  lineage_eq := by
    rw [← h.lineage_eq]
    show ((w.score.fork _ _ _).2.timeline scope.timeline).lineage = _
    -- the timeline is flushed before the fork, and keeps its lineage
    rw [ht, Score.fork_eq, ← Score.length_timelines_edit w.score w.scope.timeline Scene.flush,
      Score.timeline_enter_self]
    exact Score.lineage_edit_flush h.valid.timeline
  element := he
  params := hp.trans h.params
  names e := (congrArg OrderedMap.keys (Score.known_fork _ _ _ _ _ _)).trans (h.names e)
  animated := hanimated
  nested := hnested
  diagnostics := h.diagnostics
  stock := h.stock.fork _ _ _

theorem renew (h : Depicts base lineage k w) (at? : Option τ) :
    Depicts base lineage k (w.renew at?) := by
  have hk : { k with element := w.scope.element } = k := by rw [h.element]
  rw [← hk]
  exact h.fork w.scope.element at? rfl (renew_timeline at? w) rfl h.animated h.nested

/-- A scope is entered in the sketch as in the walk. -/
theorem enter (h : Depicts base lineage k w) (options : Option (Options τ))
    (element : ElementId) :
    Depicts base lineage (k.enter options element) (w.enter options element) := by
  -- the scope before its options come into force
  let scope : Scope τ :=
    { Scope.begin element (w.score.fork w.scope.timeline element none).1 with
      previous := w.scope.previous
      timings := w.scope.timings
      options := { Overrides.none with params := w.scope.options.params }
      index := w.scope.index
      total := w.scope.total
      outer := some ⟨w.scope.staggerTime,
        ((w.score.fork w.scope.timeline element none).2.timeline w.scope.timeline).start⟩ }
  have hfork : Depicts base lineage { k with element := element, nested := true }
      ({ w with score := (w.score.fork w.scope.timeline element none).2, scope := scope } :
        Walk τ) :=
    h.fork element none rfl (Score.fork_fst w.score w.scope.timeline element none) rfl h.animated
      rfl
  exact hfork.update false options

/-- A subtree in a scope of its own.  The outer scope may have changed in the meantime, but
not its timeline. -/
theorem leave {inner : Walk τ} {k' : Sketch τ} (h : Depicts base lineage k w)
    (hinner : Depicts base lineage k' inner) (heffect : Effect w (Walk.leave w.scope inner)) :
    Depicts base lineage (k.leave k') (Walk.leave w.scope inner) where
  consistent := ⟨(heffect.valid h.valid).timeline, hinner.consistent.score⟩
  valid := heffect.valid h.valid
  lineage_eq := (congrArg (fun o => o.1) (heffect.owner_eq h.valid.timeline)).trans h.lineage_eq
  element := h.element
  params := h.params
  -- the outer scope has its place and parameters back; names and reports are those of the inner one
  names := hinner.names
  animated := h.animated
  nested := h.nested
  diagnostics := hinner.diagnostics
  stock := hinner.stock

end Depicts

end Walk

end Choreography
