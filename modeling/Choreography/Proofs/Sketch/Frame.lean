/-
Choreography/Proofs/Sketch/Frame.lean

What a drawing depends on.

A drawing looks up parameters, but not at their order, and not at the events so far.  Two
sketches `Agree` if whatever is drawn in them comes out the same: they stand at the same element
with the same parameters, and what was reported in them since some moment is the same.  Every
drawing takes sketches that agree to sketches that do (`Animation.congruent_sketch`).

A tree that is compiled in two walks whose sketches agree therefore reports the same in both
(`Animation.reports_of_agrees`).
-/
import Choreography.Proofs.Sketch.Run

namespace Choreography

variable {τ : Type}

/-! ### The same parameters -/

/-- The same parameters have the same values, in whatever order. -/
def Params.Same (p q : Params τ) : Prop := ∀ name, p.get? name = q.get? name

namespace Params.Same

variable {p q r : Params τ}

theorem refl (p : Params τ) : Same p p := fun _ => rfl

theorem symm (h : Same p q) : Same q p := fun name => (h name).symm

theorem trans (h : Same p q) (h' : Same q r) : Same p r := fun name => (h name).trans (h' name)

theorem contains (h : Same p q) (name : String) : p.contains name = q.contains name := by
  rw [← OrderedMap.get?_isSome, ← OrderedMap.get?_isSome, h name]

theorem insert (h : Same p q) (name : String) (value : Scalar τ) :
    Same (p.insert name value) (q.insert name value) := fun name' => by
  rw [OrderedMap.get?_insert, OrderedMap.get?_insert, h name']

variable [Quantity τ]

/-- Templates are filled with the same texts, and the same is reported. -/
theorem render (h : Same p q) (t : Template) : t.render p = t.render q := by
  have hhole : ∀ hole, Template.fillHole p hole = Template.fillHole q hole := fun hole => by
    rw [Template.fillHole, Template.fillHole, h]
  -- hole by hole, for reports come in the order of the holes
  have hholes : ∀ holes, Template.fillHoles p holes = Template.fillHoles q holes := fun holes => by
    induction holes with
    | nil => rfl
    | cons hole holes ih => rw [Template.fillHoles, Template.fillHoles, hhole, ih]
  rw [Template.render, Template.render, hholes]

theorem interpolate (h : Same p q) (value : Scalar τ) :
    value.interpolate p = value.interpolate q := by
  cases value with
  | number x => rfl
  | text s => rw [Scalar.interpolate, Scalar.interpolate, h.render]

theorem interpolate_style (h : Same p q) (value : StyleValue τ) :
    value.interpolate p = value.interpolate q := by
  cases value with
  | literal s => rw [StyleValue.interpolate, StyleValue.interpolate, h.interpolate]
  | _ => rfl

/-- Parameters that are brought into force. -/
theorem addParams (h : Same p q) (keep : Bool) (declared : List (String × Scalar τ)) :
    Same (Overrides.addParams keep declared p).1 (Overrides.addParams keep declared q).1 ∧
      (Overrides.addParams keep declared p).2 = (Overrides.addParams keep declared q).2 := by
  -- each declared value is interpolated with the ones before it, so both sides go through the list
  -- together
  induction declared generalizing p q with
  | nil => exact ⟨h, rfl⟩
  | cons entry rest ih =>
    rw [Overrides.addParams, Overrides.addParams, h.contains, h.interpolate]
    split
    · exact ih h
    · obtain ⟨hparams, hreports⟩ := ih (h.insert entry.1 (entry.2.interpolate q).1)
      exact ⟨hparams, congrArg (_ ++ ·) hreports⟩

end Params.Same

variable [Quantity τ]

/-! ### Agreement -/

namespace Sketch

/-- Two sketches stand at the same place, with the same parameters in force, know the same names,
and the same was reported after some diagnostics. -/
structure Agrees (before before' : List Diagnostic) (k k' : Sketch τ) : Prop where
  element : k'.element = k.element
  params : Params.Same k.params k'.params
  names : k'.names = k.names
  animated : k'.animated = k.animated
  nested : k'.nested = k.nested
  reports : ∃ reports, Event.allReports k.events = before ++ reports ∧
    Event.allReports k'.events = before' ++ reports

/-- A drawing takes sketches that agree to sketches that do. -/
def Congruent (draw : Sketch τ → Sketch τ) : Prop :=
  ∀ ⦃before before' k k'⦄, Agrees before before' k k' → Agrees before before' (draw k) (draw k')

section Agrees

variable {before before' : List Diagnostic} {k k' inner inner' : Sketch τ}

/-- Since now nothing was reported. -/
theorem Agrees.renew (h : Agrees before before' k k') :
    Agrees (Event.allReports k.events) (Event.allReports k'.events) k k' :=
  { h with reports := ⟨[], (List.append_nil _).symm, (List.append_nil _).symm⟩ }

theorem Agrees.refl (k : Sketch τ) :
    Agrees (Event.allReports k.events) (Event.allReports k.events) k k where
  element := rfl
  params := .refl _
  names := rfl
  animated := rfl
  nested := rfl
  reports := ⟨[], (List.append_nil _).symm, (List.append_nil _).symm⟩

/-- Events that report the same may be logged, even if they are not the same. -/
theorem Agrees.log (h : Agrees before before' k k') {events events' : List (Event τ)}
    (hevents : Event.allReports events = Event.allReports events') :
    Agrees before before' (k.log events) (k'.log events') := by
  obtain ⟨reports, hk, hk'⟩ := h.reports
  refine { h with reports := ⟨reports ++ Event.allReports events, ?_, ?_⟩ }
  · show Event.allReports (k.events ++ events) = _
    rw [Event.allReports_append, hk, List.append_assoc]
  · show Event.allReports (k'.events ++ events') = _
    rw [Event.allReports_append, hk', hevents, List.append_assoc]

/-- Back in the outer scopes, the names and reports of the inner ones count. -/
theorem Agrees.leave (h : Agrees before before' k k')
    (hinner : Agrees before before' inner inner') :
    Agrees before before' (k.leave inner) (k'.leave inner') :=
  { h with names := hinner.names, reports := hinner.reports }

/-- The same entries stand for the same properties, as the same names are known. -/
theorem Agrees.write (h : Agrees before before' k k') (entries : List (StyleEntry τ)) :
    Agrees before before' (k.write entries) (k'.write entries) := by
  have hnames : k'.names k'.element = k.names k.element := by rw [h.element, h.names]
  -- the events differ in their parameters, but not in what they report
  have hstyles : Event.allReports ((expand (k.names k.element) entries).entries.map fun entry =>
      Event.style entry.2 k.params) = Event.allReports ((expand (k'.names k'.element)
        entries).entries.map fun entry => Event.style entry.2 k'.params) := by
    rw [hnames, Event.allReports, Event.allReports, List.flatMap_map, List.flatMap_map]
    exact List.flatMap_congr fun entry _ =>
      congrArg Prod.snd (h.params.interpolate_style entry.2)
  refine { h.log hstyles with names := ?_ }
  show Function.update k'.names k'.element _ = Function.update k.names k.element _
  rw [hnames, h.element, h.names]

/-- Options that come into force do so alike. -/
theorem Agrees.update (h : Agrees before before' k k') (keep : Bool)
    (options : Option (Options τ)) :
    Agrees before before' (k.update keep options) (k'.update keep options) := by
  cases options with
  | none => exact h
  | some o =>
    let declared := (o.params.getD ∅).entries
    obtain ⟨hparams, hreports⟩ := h.params.addParams keep declared
    -- again only the reports of the events have to agree
    have hevents : Event.allReports (paramEvents keep declared k.params) =
        Event.allReports (paramEvents keep declared k'.params) := by
      rw [allReports_paramEvents, allReports_paramEvents, hreports]
    exact { h.log hevents with params := hparams }

theorem Agrees.enter (h : Agrees before before' k k') (options : Option (Options τ))
    (element : ElementId) :
    Agrees before before' (k.enter options element) (k'.enter options element) := by
  have hplace : Agrees before before' { k with element := element, nested := true }
      { k' with element := element, nested := true } := { h with element := rfl, nested := rfl }
  exact hplace.update false options

/-- Timings are read alike. -/
theorem Agrees.readTiming (h : Agrees before before' k k') (timing : Timing τ)
    (allowNegative : Bool) :
    Agrees before before' (k.readTiming timing allowNegative)
      (k'.readTiming timing allowNegative) := by
  cases timing with
  | fixed t => exact h
  | expression text =>
    refine h.log ?_
    simp only [Event.allReports, Event.reports, List.flatMap_singleton, h.params.render]

end Agrees

/-! ### Drawings -/

variable {draw draw' : Sketch τ → Sketch τ} {draws : List (Sketch τ → Sketch τ)}

theorem congruent_id : Congruent (id : Sketch τ → Sketch τ) := fun _ _ _ _ h => h

theorem Congruent.comp (h : Congruent draw) (h' : Congruent draw') : Congruent (draw ∘ draw') :=
  fun _ _ _ _ hk => h (h' hk)

theorem congruent_report (ds : List Diagnostic) : Congruent (report ds : Sketch τ → Sketch τ) :=
  fun _ _ _ _ h => h.log rfl

theorem congruent_write (entries : List (StyleEntry τ)) : Congruent (write entries) :=
  fun _ _ _ _ h => h.write entries

theorem congruent_withTimings (animated : Bool) :
    Congruent (withTimings animated : Sketch τ → Sketch τ) :=
  fun _ _ _ _ h => { h with animated := rfl }

theorem congruent_update (keep : Bool) (options : Option (Options τ)) :
    Congruent (update keep options) :=
  fun _ _ _ _ h => h.update keep options

theorem congruent_readTiming (timing : Timing τ) (allowNegative : Bool) :
    Congruent (readTiming timing allowNegative) :=
  fun _ _ _ _ h => h.readTiming timing allowNegative

theorem congruent_foldl {α : Type} {f : Sketch τ → α → Sketch τ}
    (hf : ∀ a, Congruent fun k => f k a) (as : List α) : Congruent fun k => as.foldl f k := by
  intro before before' k k' h
  induction as generalizing k k' with
  | nil => exact h
  | cons a as ih => exact ih (hf a h)

theorem congruent_follow (h : ∀ draw ∈ draws, Congruent draw) : Congruent (follow draws) := by
  intro before before' k k' hk
  induction draws generalizing k k' with
  | nil => exact hk
  | cons draw draws ih =>
    rw [List.forall_mem_cons] at h
    exact ih h.2 (h.1 hk)

theorem Congruent.inScope (h : Congruent draw) (options : Option (Options τ))
    (element : ElementId) : Congruent (inScope options element draw) :=
  fun _ _ _ _ hk => hk.leave (h (hk.enter options element))

/-- Keyframes look at whether there is an animated step around, and at nothing else. -/
theorem congruent_keyframes (steps : List (StyleStep τ)) : Congruent (keyframes steps) := by
  intro before before' k k' h
  have hwrites : Congruent fun k : Sketch τ =>
      steps.foldl (fun k (step : StyleStep τ) => k.write step.entries) k :=
    congruent_foldl (fun step => congruent_write step.entries) steps
  unfold keyframes
  rw [h.animated, h.element]
  split
  · exact hwrites.inScope none k.element h
  · exact congruent_report _ h

/-- An animated step is congruent, as its reading, its target and its end are. -/
theorem congruent_animate (timing : Timing τ) (target : Target τ) :
    Congruent (animate timing target) := by
  have hmove : Congruent (moveTo target) := by
    cases target with
    | style step => exact congruent_write step.entries
    | keyframes steps => exact congruent_keyframes steps
  exact (((congruent_withTimings false).comp hmove).comp (congruent_withTimings true)).comp
    (congruent_readTiming timing false)

/-- Whether a sequence opens a scope is a matter of its options alone. -/
theorem congruent_openSequence (options : Option (Options τ)) :
    Congruent (openSequence options) := by
  intro before before' k k' h
  unfold openSequence
  rw [h.element]
  cases Walk.scoping options with
  | none => exact h
  | some o => exact h.enter (some o) k.element

theorem congruent_sequence (h : ∀ draw ∈ draws, Congruent draw) (options : Option (Options τ)) :
    Congruent (sequence draws options) := by
  intro before before' k k' hk
  have hinner := congruent_follow h (congruent_openSequence options hk)
  unfold sequence
  split
  · exact hk.leave hinner
  · exact hinner

/-- Groups are congruent if their branches are. -/
theorem congruent_group (h : ∀ draw ∈ draws, Congruent draw) (options : Option (Options τ)) :
    Congruent (group draws options) := by
  intro before before' k k' hk
  unfold group
  induction draws generalizing k k' with
  | nil => exact hk
  | cons draw draws ih =>
    rw [List.forall_mem_cons] at h
    -- the element is read off the sketch anew for each branch, so it is rewritten each time
    have hbranch := h.1.inScope options k.element hk
    rw [List.foldl_cons, List.foldl_cons, hk.element]
    exact ih h.2 hbranch

theorem congruent_referenceDelay (options : Option (Options τ)) :
    Congruent (referenceDelay options : Sketch τ → Sketch τ) := by
  unfold referenceDelay
  split
  · exact congruent_id
  · split
    · exact congruent_id
    · exact fun _ _ _ _ h => h.log rfl

theorem congruent_openUse (defaults options : Option (Options τ)) :
    Congruent (openUse defaults options) := by
  intro before before' k k' h
  have hopen := h.enter options k.element
  unfold openUse
  rw [h.element]
  exact congruent_referenceDelay defaults (congruent_referenceDelay options hopen)

theorem Congruent.animateRef (h : Congruent draw) (defaults options : Option (Options τ)) :
    Congruent (animateRef draw defaults options) :=
  fun _ _ _ _ hk =>
    hk.leave (h ((congruent_openUse defaults options hk).update true defaults))

/-- Whether an element has animations already depends on the element alone. -/
theorem congruent_animateChild (setting : Setting τ) (options : Option (Options τ)) :
    Congruent (animateChild setting options) := by
  intro before before' k k' h
  unfold animateChild
  rw [h.element]
  split
  · exact congruent_id.inScope options k.element h
  · exact h

theorem congruent_openQuery (q : Selection) (elements : List ElementId) :
    Congruent (openQuery q elements : Sketch τ → Sketch τ) := by
  unfold openQuery
  split
  · exact congruent_report _
  · exact congruent_id

theorem Congruent.matched (h : Congruent draw) (options : Option (Options τ))
    (elements : List ElementId) : Congruent (matched draw options elements) :=
  congruent_foldl (fun element => h.inScope options element) elements

/-- Queries are congruent if their animations are, for the host is asked from the same element. -/
theorem Congruent.query (h : Congruent draw) (setting : Setting τ) (q : Selection)
    (options : Option (Options τ)) : Congruent (query setting draw q options) := by
  intro before before' k k' hk
  unfold Sketch.query
  -- the same element, hence the same answer of the host
  rw [hk.element]
  exact h.matched options _ (congruent_openQuery q _ hk)

/-- Whether a stagger is reported depends on whether there is a scope around. -/
theorem congruent_openStagger (timing : Timing τ) : Congruent (openStagger timing) := by
  intro before before' k k' h
  unfold openStagger
  rw [h.nested]
  split
  · exact h.readTiming timing true
  · exact congruent_report _ h

end Sketch

open Sketch in
/-- Every drawing takes sketches that agree to sketches that do. -/
theorem Animation.congruent_sketch (setting : Setting τ) (tree : Animation τ) :
    Congruent (tree.sketch setting) := by
  induction tree using Animation.induct with
  | trigger | state | transition => exact congruent_id
  | sequence steps options ih => exact congruent_sequence (forall_mem_sketches ih) options
  | group steps options ih => exact congruent_group (forall_mem_sketches ih) options
  | animate timing target => exact congruent_animate timing target
  | keyframes steps => exact congruent_keyframes steps
  | style step => exact congruent_write step.entries
  | reference animation options ih => exact ih.comp (congruent_update true options)
  | animateChild options => exact congruent_animateChild setting options
  | animateRef animation defaults options ih => exact ih.animateRef defaults options
  | query q animation options ih => exact ih.query setting q options
  | stagger timing animation ih => exact ih.comp (congruent_openStagger timing)

/-! ### Trees in two walks -/

section Reports

open Walk (Depicts)

variable {setting : Setting τ} {base : StyleValue τ → Prop} {lineage : Nat}
  {before before' : List Diagnostic}

theorem congruent_sketches (setting : Setting τ) (steps : List (Animation τ)) :
    ∀ draw ∈ sketches setting steps, Sketch.Congruent draw :=
  forall_mem_sketches fun step _ => step.congruent_sketch setting

/-- A tree reports the same in two walks. -/
theorem Animation.reports_of_agrees (hbase : setting.Provides base) (tree : Animation τ)
    {k k' : Sketch τ} {w w' : Walk τ} (hw : Depicts base lineage k w)
    (hw' : Depicts base lineage k' w') (h : k.Agrees before before' k') :
    ∃ reports, (tree.body setting w).diagnostics = w.diagnostics ++ reports ∧
      (tree.body setting w').diagnostics = w'.diagnostics ++ reports := by
  -- what counts is what is reported from here on
  obtain ⟨reports, hk, hk'⟩ := (tree.congruent_sketch setting h.renew).reports
  refine ⟨reports, ?_, ?_⟩
  · rw [((tree.draws hbase lineage).depicts hw).diagnostics, hk, hw.diagnostics]
  · rw [((tree.draws hbase lineage).depicts hw').diagnostics, hk', hw'.diagnostics]

end Reports

end Choreography
