/-
Choreography/Proofs/Correspondence/Walk.lean

Walks of two runs side by side.

Walks correspond if their scores do and their scopes stand on counterparts, with the same
parameters and timings in force (`Walk.Corresponds`).  Where a scope stands among the matches
of a query counts only if the runs have everything in common.

`Tandem c w u w' u'` says that what leads from `w` to `w'` and from `u` to `u'` keeps walks
corresponding, and does not turn back the clock.  The latter is needed because a new timeline
is given the time at which to start, and a time of zero counts as none: moved times must not
meet the zero at different moments (`Translation.time_fork`).  Tandems compose, and so do
those of scopes that are entered and left again (`Tandem.leave`).
-/
import Choreography.Proofs.Correspondence.Score
import Choreography.Proofs.Visit

namespace Choreography

variable {τ : Type} [Quantity τ]

/-- Surroundings with the absolute times moved. -/
def Surroundings.moved (f : τ → τ) (outer : Surroundings τ) : Surroundings τ :=
  { outer with start := f outer.start }

/-- Two scopes have the same place among matches and staggers. -/
structure Scope.Beside (f : τ → τ) (scope scope' : Scope τ) : Prop where
  index : scope'.index = scope.index
  total : scope'.total = scope.total
  staggerTime : scope'.staggerTime = scope.staggerTime
  outer : scope'.outer = scope.outer.map (Surroundings.moved f)

namespace Walk

/-! ### Walks side by side -/

/-- The walks of two runs correspond. -/
structure Corresponds (c : Correspondence τ) (w u : Walk τ) : Prop where
  score : w.score.Corresponds c u.score
  valid : w.Valid
  since : c.base.score.timelines.length ≤ w.scope.timeline
  line : u.scope.timeline = c.counterpart w.scope.timeline
  element : u.scope.element = w.scope.element
  previous : u.scope.previous = w.scope.previous
  timings : u.scope.timings = w.scope.timings
  forth : ∀ timings, w.scope.timings = some timings → c.translation.forth timings.duration
  params : u.scope.options.params = w.scope.options.params
  forks : u.scope.forks = w.scope.forks
  diagnostics : ∃ reports, w.diagnostics = c.base.diagnostics ++ reports ∧
    u.diagnostics = c.base'.diagnostics ++ reports
  beside : c.extent.Whole → w.scope.Beside c.translation.time u.scope

section Corresponds

variable {c : Correspondence τ} {w u : Walk τ}

/-- The scopes see scenes that correspond. -/
theorem Corresponds.scene (h : w.Corresponds c u) :
    (w.score.scene w.scope.timeline).Corresponds c.translation c.extent
      (u.score.scene u.scope.timeline) := by
  rw [h.line]
  exact h.score.scene h.since h.valid.timeline

/-- The timelines of the scopes differ by the translation. -/
theorem Corresponds.timeline_eq (h : w.Corresponds c u) :
    u.timeline = w.timeline.moved c.translation.time :=
  h.scene.timeline

theorem Corresponds.currentTime_eq (h : w.Corresponds c u) :
    u.currentTime = c.translation.time w.currentTime :=
  h.scene.currentTime_eq

/-- The element of the scope is concerned. -/
theorem Corresponds.covers (h : w.Corresponds c u) :
    c.extent.Covers (w.timeline.lineage, w.scope.element) := by
  rw [← h.valid.element]
  exact h.scene.within.covered

/-- What happens in the score alone. -/
theorem Corresponds.withScore (h : w.Corresponds c u) {s s' : Score τ} (hs : s.Corresponds c s')
    (hv : ({ w with score := s } : Walk τ).Valid) :
    ({ w with score := s } : Walk τ).Corresponds c { u with score := s' } :=
  ⟨hs, hv, h.since, h.line, h.element, h.previous, h.timings, h.forth, h.params, h.forks,
    h.diagnostics, h.beside⟩

theorem Corresponds.report (h : w.Corresponds c u) (reports : List Diagnostic) :
    (w.report reports).Corresponds c (u.report reports) := by
  obtain ⟨before, hw, hu⟩ := h.diagnostics
  refine ⟨h.score, h.valid.of_eq rfl rfl rfl, h.since, h.line, h.element, h.previous, h.timings,
    h.forth, h.params, h.forks, ⟨before ++ reports, ?_, ?_⟩, h.beside⟩
  · rw [Walk.report, hw, List.append_assoc]
  · rw [Walk.report, hu, List.append_assoc]

theorem Corresponds.update (h : w.Corresponds c u) (keep : Bool) (options : Option (Options τ)) :
    (w.update keep options).Corresponds c (u.update keep options) := by
  -- of what is in force only the parameters matter
  have hparams : (u.scope.options.update keep options).1.params =
        (w.scope.options.update keep options).1.params ∧
      (u.scope.options.update keep options).2 = (w.scope.options.update keep options).2 := by
    cases options with
    | none => exact ⟨h.params, rfl⟩
    | some options => simp only [Overrides.update, h.params, and_self]
  obtain ⟨before, hw, hu⟩ := h.diagnostics
  refine ⟨h.score, h.valid.of_eq rfl rfl rfl, h.since, h.line, h.element, h.previous, h.timings,
    h.forth, hparams.1, h.forks, ⟨before ++ (w.scope.options.update keep options).2, ?_, ?_⟩, ?_⟩
  · rw [← List.append_assoc, ← hw]
    rfl
  · rw [← List.append_assoc, ← hu, ← hparams.2]
    rfl
  · exact fun hwhole => ⟨(h.beside hwhole).index, (h.beside hwhole).total,
      (h.beside hwhole).staggerTime, (h.beside hwhole).outer⟩

theorem Corresponds.after (h : w.Corresponds c u) (kind : Kind) :
    (w.after kind).Corresponds c (u.after kind) :=
  ⟨h.score, h.valid.of_eq rfl rfl rfl, h.since, h.line, h.element, rfl, h.timings, h.forth,
    h.params, h.forks, h.diagnostics, fun hwhole => ⟨(h.beside hwhole).index,
      (h.beside hwhole).total, (h.beside hwhole).staggerTime, (h.beside hwhole).outer⟩⟩

theorem Corresponds.withTimings (h : w.Corresponds c u) {timings : Option (Timings τ)}
    (hforth : ∀ t, timings = some t → c.translation.forth t.duration) :
    (w.withTimings timings).Corresponds c (u.withTimings timings) :=
  ⟨h.score, h.valid.of_eq rfl rfl rfl, h.since, h.line, h.element, h.previous, rfl, hforth,
    h.params, h.forks, h.diagnostics, fun hwhole => ⟨(h.beside hwhole).index,
      (h.beside hwhole).total, (h.beside hwhole).staggerTime, (h.beside hwhole).outer⟩⟩

/-! ### The timeline of the scope -/

/-- The timelines of the scopes are changed alike. -/
theorem Corresponds.edit (h : w.Corresponds c u) {f g : Scene τ → Scene τ}
    (hf : Scene.Keeps c.translation c.extent (w.score.scene w.scope.timeline)
      (f (w.score.scene w.scope.timeline)) (g (u.score.scene u.scope.timeline)))
    (hv : (w.edit f).Valid) : (w.edit f).Corresponds c (u.edit g) := by
  rw [h.line] at hf
  refine h.withScore ?_ hv
  rw [h.line]
  exact h.score.edit h.since h.valid.timeline hf

/-- The same is written on the timelines of the scopes. -/
theorem Corresponds.writeAt (h : w.Corresponds c u) {entries : List (StyleEntry τ)}
    (hw : c.extent.Writes entries) (easing : Option String) :
    (w.writeAt w.scope.timeline entries easing).Corresponds c
      (u.writeAt u.scope.timeline entries easing) := by
  obtain ⟨hkeeps, hreports⟩ := h.scene.setStyles hw easing w.scope.options.params
  have hedit := h.edit (f := fun s => (s.setStyles entries easing w.scope.options.params).1)
    (g := fun s => (s.setStyles entries easing w.scope.options.params).1) hkeeps
    ((Effect.change w (.write entries easing w.scope.options.params)).valid h.valid)
  have hreport := hedit.report
    ((w.score.scene w.scope.timeline).setStyles entries easing w.scope.options.params).2
  -- the parameters and the reports of the second run are those of the first one
  have hu : u.writeAt u.scope.timeline entries easing =
      (u.edit fun s => (s.setStyles entries easing w.scope.options.params).1).report
        ((w.score.scene w.scope.timeline).setStyles entries easing w.scope.options.params).2 := by
    rw [← hreports, ← h.params]
    rfl
  rw [hu]
  exact hreport

/-- Going on in a new timeline, at times that correspond. -/
theorem Corresponds.renew (h : w.Corresponds c u) {at? at?' : Option τ}
    (hat : u.score.forkTime u.scope.timeline at?' =
      c.translation.time (w.score.forkTime w.scope.timeline at?)) :
    (w.renew at?).Corresponds c (u.renew at?') := by
  rw [h.line] at hat
  have hscore := h.score.fork h.since h.valid.timeline h.covers hat
  have hline : (u.renew at?').scope.timeline = c.counterpart (w.renew at?).scope.timeline := by
    rw [renew_timeline, renew_timeline]
    exact h.score.length_eq
  have hsince : c.base.score.timelines.length ≤ (w.renew at?).scope.timeline := by
    rw [renew_timeline]
    exact h.score.length_le
  refine ⟨?_, (effect_renew at? w).valid h.valid, hsince, hline, h.element, rfl, h.timings,
    h.forth, h.params, h.forks, h.diagnostics, fun hwhole => ⟨(h.beside hwhole).index,
      (h.beside hwhole).total, (h.beside hwhole).staggerTime, (h.beside hwhole).outer⟩⟩
  show (w.score.fork _ _ _).2.Corresponds c (u.score.fork _ _ _).2
  rw [h.line, h.element]
  exact hscore

/-- Both walks go on in new timelines where their clocks stand. -/
theorem Corresponds.renew_none (h : w.Corresponds c u) :
    (w.renew none).Corresponds c (u.renew none) :=
  h.renew h.currentTime_eq

theorem Corresponds.renew_some (h : w.Corresponds c u) {time : τ}
    (hnow : c.translation.ahead 0 w.currentTime) (hle : c.translation.ahead w.currentTime time) :
    (w.renew (some time)).Corresponds c (u.renew (some (c.translation.time time))) := by
  refine h.renew ?_
  show (if c.translation.time time != 0 then c.translation.time time else u.currentTime) = _
  rw [h.currentTime_eq]
  exact c.translation.time_fork hnow hle

/-- Counterparts are merged into the timelines of the scopes. -/
theorem Corresponds.merge (h : w.Corresponds c u) {source : TimelineId}
    (hsource : c.base.score.timelines.length ≤ source)
    (hlt : source < w.score.timelines.length) :
    ({ w with score := w.score.merge w.scope.timeline source } : Walk τ).Corresponds c
      { u with score := u.score.merge u.scope.timeline (c.counterpart source) } := by
  refine h.withScore ?_ ((effect_merge source w).valid h.valid)
  rw [h.line]
  exact h.score.merge h.since h.valid.timeline hsource hlt

/-- Many of them are merged, one after another. -/
theorem Corresponds.gather (h : w.Corresponds c u) {ids : List TimelineId}
    (hids : ∀ id ∈ ids, c.base.score.timelines.length ≤ id ∧ id < w.score.timelines.length) :
    (w.gather ids).Corresponds c (u.gather (ids.map c.counterpart)) := by
  induction ids generalizing w u with
  | nil => exact h
  | cons id ids ih =>
    rw [List.forall_mem_cons] at hids
    have hmerge := h.merge hids.1.1 hids.1.2
    -- no merge takes a timeline away, so the handles stay in range
    refine ih hmerge fun id' hid' => ⟨(hids.2 id' hid').1, ?_⟩
    exact Nat.lt_of_lt_of_le (hids.2 id' hid').2 (effect_merge id w).length_le

/-! ### Scopes -/

/-- Entering a scope, from walks whose scores correspond afterwards. -/
theorem corresponds_enter_of_score (hv : w.Valid) {options : Option (Options τ)}
    {element : ElementId} (hscore : (w.enter options element).score.Corresponds c
      (u.enter options element).score)
    (hsince : c.base.score.timelines.length ≤ w.score.timelines.length)
    (hlength : u.score.timelines.length = c.counterpart w.score.timelines.length)
    (hprevious : u.scope.previous = w.scope.previous) (htimings : u.scope.timings = w.scope.timings)
    (hforth : ∀ timings, w.scope.timings = some timings → c.translation.forth timings.duration)
    (hparams : u.scope.options.params = w.scope.options.params)
    (hdiagnostics : ∃ reports, w.diagnostics = c.base.diagnostics ++ reports ∧
      u.diagnostics = c.base'.diagnostics ++ reports)
    (hbeside : c.extent.Whole →
      (w.enter options element).scope.Beside c.translation.time (u.enter options element).scope) :
    (w.enter options element).Corresponds c (u.enter options element) := by
  -- the parameters in force inside, and what is reported of them
  have hupdate : ({ (Overrides.none : Overrides τ) with params := u.scope.options.params }).update
      false options =
        ({ (Overrides.none : Overrides τ) with params := w.scope.options.params }).update
          false options := by
    rw [hparams]
  obtain ⟨before, hw, hu⟩ := hdiagnostics
  refine ⟨hscore, hv.enter options element, ?_, ?_, ?_, hprevious, htimings, hforth, ?_, rfl,
    ⟨before ++ (({ (Overrides.none : Overrides τ) with
      params := w.scope.options.params }).update false options).2, ?_, ?_⟩, hbeside⟩
  · rw [enter_timeline]
    exact hsince
  · rw [enter_timeline, enter_timeline]
    exact hlength
  · rw [enter_element, enter_element]
  · exact congrArg (fun update => update.1.params) hupdate
  · rw [← List.append_assoc, ← hw]
    rfl
  · rw [← List.append_assoc, ← hu, ← hupdate]
    rfl

/-- The options in force in a scope that was just entered. -/
theorem Corresponds.options_enter (h : w.Corresponds c u) (options : Option (Options τ))
    (element : ElementId) :
    (u.enter options element).scope.options = (w.enter options element).scope.options := by
  show (({ (Overrides.none : Overrides τ) with params := u.scope.options.params }).update
    false options).1 = _
  rw [h.params]
  rfl

/-- Both runs enter a scope for an element that is concerned. -/
theorem Corresponds.enter (h : w.Corresponds c u) (options : Option (Options τ))
    {element : ElementId} (hcovers : c.extent.Covers (w.timeline.lineage, element)) :
    (w.enter options element).Corresponds c (u.enter options element) := by
  refine corresponds_enter_of_score h.valid ?_ h.score.length_le h.score.length_eq h.previous
    h.timings h.forth h.params h.diagnostics fun hwhole => ?_
  · rw [enter_score, enter_score, h.line]
    refine h.score.fork h.since h.valid.timeline hcovers ?_
    rw [← h.line]
    exact h.currentTime_eq
  · -- the outer timeline starts where it did
    have hstart : ∀ v : Walk τ, v.scope.timeline < v.score.timelines.length →
        ((v.enter options element).score.timeline v.scope.timeline).start = v.timeline.start := by
      intro v hlt
      rw [enter_score]
      show ((v.score.fork v.scope.timeline element none).2.timeline v.scope.timeline).start = _
      rw [Score.timeline_fork_of_lt _ _ _ hlt, Score.timeline_edit_self _ hlt]
      exact congrArg Skeleton.start (Scene.skeleton_flush (v.score.scene v.scope.timeline))
    have hlt' : u.scope.timeline < u.score.timelines.length := by
      rw [h.line, h.score.length_eq]
      exact Correspondence.counterpart_lt h.since h.valid.timeline
    have houter : ∀ v : Walk τ, (v.enter options element).scope.outer =
        some ⟨v.scope.staggerTime, ((v.enter options element).score.timeline
          v.scope.timeline).start⟩ := by
      intro v
      cases options <;> rfl
    refine ⟨(h.beside hwhole).index, (h.beside hwhole).total, rfl, ?_⟩
    rw [houter, houter, hstart u hlt', hstart w h.valid.timeline, h.timeline_eq,
      (h.beside hwhole).staggerTime]
    rfl

/-- Leaving scopes that were entered from corresponding walks. -/
theorem Corresponds.leave (h : w.Corresponds c u) {inner inner' : Walk τ}
    (hinner : inner.Corresponds c inner') (hv : (leave w.scope inner).Valid) :
    (Walk.leave w.scope inner).Corresponds c (Walk.leave u.scope inner') := by
  refine ⟨hinner.score, hv, h.since, h.line, h.element, h.previous, h.timings, h.forth, h.params,
    congrArg (· + 1) h.forks, hinner.diagnostics, fun hwhole => ?_⟩
  refine ⟨(h.beside hwhole).index, (h.beside hwhole).total, ?_, (h.beside hwhole).outer⟩
  -- what a stagger has recorded inside is taken along
  show inner'.scope.outer.elim u.scope.staggerTime Surroundings.staggerTime = _
  rw [(hinner.beside hwhole).outer, (h.beside hwhole).staggerTime]
  show _ = inner.scope.outer.elim w.scope.staggerTime Surroundings.staggerTime
  cases inner.scope.outer <;> rfl

end Corresponds

/-! ### Tandems -/

/-- What leads from one walk to the next keeps walks corresponding, and does not turn back
the clock.  Where times are moved this is said of runs that report nothing. -/
structure Tandem (c : Correspondence τ) (w u w' u' : Walk τ) : Prop where
  effect : Effect w w'
  keeps : w.Corresponds c u → c.translation.still ∨ w'.diagnostics = [] →
    c.translation.ahead 0 w.currentTime →
      w'.Corresponds c u' ∧ c.translation.ahead w.currentTime w'.currentTime

section Tandem

variable {c : Correspondence τ} {w u w₁ u₁ w₂ u₂ : Walk τ}

theorem Tandem.refl (c : Correspondence τ) (w u : Walk τ) : Tandem c w u w u where
  effect := .refl w
  keeps h _ _ := ⟨h, c.translation.ahead_refl _⟩

/-- What was not reported in the end was not reported before. -/
theorem still_or_clean (h : Effect w w₁) (hclean : c.translation.still ∨ w₁.diagnostics = []) :
    c.translation.still ∨ w.diagnostics = [] :=
  hclean.imp_right h.precedes.clean

theorem Tandem.trans (h : Tandem c w u w₁ u₁) (h' : Tandem c w₁ u₁ w₂ u₂) :
    Tandem c w u w₂ u₂ where
  effect := h.effect.trans h'.effect
  keeps hw hclean hnow := by
    obtain ⟨hmiddle, hle⟩ := h.keeps hw (still_or_clean h'.effect hclean) hnow
    obtain ⟨hend, hle'⟩ := h'.keeps hmiddle hclean (c.translation.ahead_trans hnow hle)
    exact ⟨hend, c.translation.ahead_trans hle hle'⟩

/-- One may use that the walks correspond and that nothing is reported in the end. -/
theorem Tandem.assuming (he : Effect w w₁)
    (h : w.Corresponds c u → c.translation.still ∨ w₁.diagnostics = [] → Tandem c w u w₁ u₁) :
    Tandem c w u w₁ u₁ where
  effect := he
  keeps hw hclean hnow := (h hw hclean).keeps hw hclean hnow

/-- What takes no time. -/
theorem Tandem.of_currentTime_eq (he : Effect w w₁)
    (htime : w.Valid → w₁.currentTime = w.currentTime)
    (h : w.Corresponds c u → w₁.Corresponds c u₁) : Tandem c w u w₁ u₁ where
  effect := he
  keeps hw _ _ := by
    refine ⟨h hw, ?_⟩
    rw [htime hw.valid]
    exact c.translation.ahead_refl _

/-- Reports take no time. -/
theorem tandem_report (reports : List Diagnostic) (w u : Walk τ) :
    Tandem c w u (w.report reports) (u.report reports) :=
  .of_currentTime_eq (.report w reports) (fun _ => rfl) fun h => h.report reports

theorem tandem_update (keep : Bool) (options : Option (Options τ)) (w u : Walk τ) :
    Tandem c w u (w.update keep options) (u.update keep options) :=
  .of_currentTime_eq (Effect.compositional.update keep options w) (fun _ => rfl)
    fun h => h.update keep options

theorem tandem_after (kind : Kind) (w u : Walk τ) :
    Tandem c w u (w.after kind) (u.after kind) :=
  .of_currentTime_eq (Effect.compositional.after kind w) (fun _ => rfl) fun h => h.after kind

theorem tandem_withTimings (timings : Option (Timings τ))
    (hforth : ∀ t, timings = some t → c.translation.forth t.duration) (w u : Walk τ) :
    Tandem c w u (w.withTimings timings) (u.withTimings timings) :=
  .of_currentTime_eq (Effect.compositional.withTimings timings w) (fun _ => rfl)
    fun h => h.withTimings hforth

/-- A change of the timeline of the scope. -/
theorem tandem_edit {f : Scene τ → Scene τ} (he : Effect w (w.edit f))
    (hf : Scene.Carried c.translation c.extent f)
    (hclock : ∀ s : Scene τ, c.translation.ahead s.timeline.currentTime
      (f s).timeline.currentTime) (u : Walk τ) : Tandem c w u (w.edit f) (u.edit f) where
  effect := he
  keeps hw _ _ := by
    refine ⟨hw.edit (hf hw.scene) (he.valid hw.valid), ?_⟩
    -- the clock is that of the timeline that was changed
    have htimeline : (w.edit f).timeline = (f (w.score.scene w.scope.timeline)).timeline :=
      Score.timeline_edit_self f hw.valid.timeline
    rw [currentTime, currentTime, htimeline]
    exact hclock (w.score.scene w.scope.timeline)

/-- A change of styles takes no time. -/
theorem tandem_edit_of_skeleton_eq {f : Scene τ → Scene τ} (he : Effect w (w.edit f))
    (hf : Scene.Carried c.translation c.extent f)
    (hskeleton : ∀ s, (f s).timeline.skeleton = s.timeline.skeleton) (u : Walk τ) :
    Tandem c w u (w.edit f) (u.edit f) := by
  refine tandem_edit he hf (fun s => ?_) u
  rw [Timeline.currentTime_eq_of_skeleton_eq (hskeleton s)]
  exact c.translation.ahead_refl _

theorem tandem_flush (w u : Walk τ) : Tandem c w u (w.edit Scene.flush) (u.edit Scene.flush) :=
  tandem_edit_of_skeleton_eq (.change w .flush) Scene.carried_flush Scene.skeleton_flush u

theorem tandem_snapshot (w u : Walk τ) :
    Tandem c w u (w.edit Scene.snapshot) (u.edit Scene.snapshot) :=
  tandem_edit_of_skeleton_eq (.change w .snapshot) Scene.carried_snapshot Scene.skeleton_snapshot u

theorem tandem_writeAt {entries : List (StyleEntry τ)} (hw : c.extent.Writes entries)
    (easing : Option String) (w u : Walk τ) :
    Tandem c w u (w.writeAt w.scope.timeline entries easing)
      (u.writeAt u.scope.timeline entries easing) := by
  refine .of_currentTime_eq (Effect.compositional.writeAt entries easing w) (fun hv => ?_)
    fun h => h.writeAt hw easing
  have htimeline : (w.writeAt w.scope.timeline entries easing).timeline =
      ((w.score.scene w.scope.timeline).setStyles entries easing
        w.scope.options.params).1.timeline :=
    Score.timeline_edit_self (fun s => (s.setStyles entries easing w.scope.options.params).1)
      hv.timeline
  rw [currentTime, currentTime, htimeline]
  exact Timeline.currentTime_eq_of_skeleton_eq (Scene.skeleton_setStyles _ _ _ _)

/-- A span that does not turn back the clock is passed in both runs. -/
theorem tandem_advance {time : τ} (h : c.translation.forth time) (w u : Walk τ) :
    Tandem c w u (w.advance time) (u.advance time) := by
  refine tandem_edit (Effect.compositional.advance time w)
    (Scene.carried_forwardTo (fun t => t.duration + time) fun _ => rfl) (fun s => ?_) u
  rw [Scene.currentTime_forwardTo]
  exact c.translation.ahead_add_add _ _ h

/-- Only positive delays count. -/
theorem tandem_delay (time : τ) (w u : Walk τ) : Tandem c w u (w.delay time) (u.delay time) := by
  unfold delay
  split
  · rename_i hpos
    have hforth := c.translation.forth_of_pos hpos
    refine tandem_edit (.change w (.delay time)) (Scene.carried_delayNextStep time) (fun s => ?_) u
    show c.translation.ahead _ (s.delayNextStep time).timeline.currentTime
    -- the clock moves on, or the start does: the time is the same
    unfold Scene.delayNextStep
    dsimp only
    split
    · split
      · rw [Timeline.currentTime_eq_of_skeleton_eq (Scene.skeleton_snapshot _),
          Scene.currentTime_forwardTo]
        exact c.translation.ahead_add_add _ _ hforth
      · rw [Scene.currentTime_forwardTo]
        exact c.translation.ahead_add_add _ _ hforth
    · exact c.translation.ahead_add_right _ _ hforth
  · exact .refl c w u

/-- A new timeline begins where the clock stands. -/
theorem tandem_renew_none (w u : Walk τ) : Tandem c w u (w.renew none) (u.renew none) where
  effect := effect_renew none w
  keeps h _ _ := by
    refine ⟨h.renew_none, ?_⟩
    obtain ⟨lineage, own, hnew⟩ := timeline_renew none w
    have htime : (w.renew none).currentTime = w.currentTime + 0 := by
      rw [currentTime, hnew]
      rfl
    rw [htime]
    exact c.translation.ahead_add _ c.translation.forth_zero

/-- Going on at a later time. -/
theorem Tandem.renew_some (h : Tandem c w u w₁ u₁) {time : τ}
    (hle : w.Corresponds c u → c.translation.still ∨ w₁.diagnostics = [] →
      c.translation.ahead 0 w.currentTime → w₁.currentTime = w.currentTime ∧
        c.translation.ahead w.currentTime time) {time' : τ}
    (htime : w.Corresponds c u → c.translation.still ∨ w₁.diagnostics = [] →
      c.translation.ahead 0 w.currentTime → time' = c.translation.time time) :
    Tandem c w u (w₁.renew (some time)) (u₁.renew (some time')) where
  effect := h.effect.trans (effect_renew _ _)
  keeps hw hclean hnow := by
    have hclean' := still_or_clean (effect_renew _ _) hclean
    obtain ⟨hw₁, -⟩ := h.keeps hw hclean' hnow
    obtain ⟨hsame, hlater⟩ := hle hw hclean' hnow
    rw [htime hw hclean' hnow]
    refine ⟨hw₁.renew_some (hsame ▸ hnow) (hsame ▸ hlater), ?_⟩
    -- the new timeline stands at its start, which is the given time unless that is zero
    obtain ⟨lineage, own, hnew⟩ := timeline_renew (some time) w₁
    have hstart : (w₁.renew (some time)).currentTime =
        (if time != 0 then time else w₁.currentTime) + 0 := by
      rw [currentTime, hnew]
      rfl
    rw [hstart]
    refine c.translation.ahead_trans ?_ (c.translation.ahead_add _ c.translation.forth_zero)
    split
    · exact hlater
    · rw [hsame]
      exact c.translation.ahead_refl _

/-! ### Scopes in tandem -/

section Enter

variable {inner inner' : Walk τ} {options : Option (Options τ)} {element element' : ElementId}

/-- A scope that was just entered stands where the outer one stands. -/
theorem currentTime_enter_eq (w : Walk τ) (options : Option (Options τ)) (element : ElementId) :
    (w.enter options element).currentTime = w.currentTime + 0 := by
  obtain ⟨lineage, own, hnew⟩ := enter_timeline_eq w options element
  rw [currentTime, hnew]
  rfl

/-- What happens in scopes that are entered from corresponding walks. -/
theorem Tandem.entered
    (h : Tandem c (w.enter options element) (u.enter options element') inner inner')
    (hw : w.Corresponds c u) (helement : element' = element)
    (hcovers : c.extent.Covers (w.timeline.lineage, element))
    (hclean : c.translation.still ∨ inner.diagnostics = [])
    (hnow : c.translation.ahead 0 w.currentTime) :
    inner.Corresponds c inner' ∧ c.translation.ahead w.currentTime inner.currentTime := by
  subst helement
  -- the clock inside is that of the scope around
  have henter : c.translation.ahead w.currentTime (w.enter options element').currentTime := by
    rw [currentTime_enter_eq]
    exact c.translation.ahead_add _ c.translation.forth_zero
  obtain ⟨hinner, hle⟩ :=
    h.keeps (hw.enter options hcovers) hclean (c.translation.ahead_trans hnow henter)
  exact ⟨hinner, c.translation.ahead_trans henter hle⟩

/-- A subtree in a scope of its own takes no time outside. -/
theorem Tandem.leave (h : Tandem c (w.enter options w.scope.element)
      (u.enter options u.scope.element) inner inner') :
    Tandem c w u (leave w.scope inner) (leave u.scope inner') where
  effect := .leave rfl rfl rfl h.effect
  keeps hw hclean hnow := by
    have heffect : Effect w (Walk.leave w.scope inner) := .leave rfl rfl rfl h.effect
    obtain ⟨hinner, -⟩ := h.entered hw hw.element hw.covers hclean hnow
    refine ⟨hw.leave hinner (heffect.valid hw.valid), ?_⟩
    rw [(spared_leave hw.valid rfl rfl h.effect).currentTime_eq]
    exact c.translation.ahead_refl _

end Enter

end Tandem

end Walk

end Choreography
