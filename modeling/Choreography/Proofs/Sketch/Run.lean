/-
Choreography/Proofs/Sketch/Run.lean

Where the style values of a run come from.

The drawing of a tree interpolates the style values of the nodes that are visited, each with
the parameters that are in force there, and nothing else (`Animation.mem_styles_sketch`).  The
walk in which a run starts is easily sketched, so every value in an emitted instruction is
`auto`, or stands in an instruction that an element had already, or came of the interpolation
of a style value: of the starting styles, of the final styles, or of a visited node
(`comes_of_mem_instructions`).
-/
import Choreography.Proofs.Run
import Choreography.Proofs.Sketch.Nodes
import Choreography.Proofs.Wire.Tree

namespace Choreography

variable {τ : Type}

/-! ### Interpolated styles -/

/-- Entries stand for their values, and wildcards for `auto`. -/
theorem mem_expand {names : List String} {entries : List (StyleEntry τ)}
    {entry : String × StyleValue τ} (h : entry ∈ (expand names entries).entries) :
    entry.2 = .auto ∨ entry.2 ∈ entries.flatMap StyleEntry.styleValues := by
  -- by the map as a whole, for a later entry may replace an earlier one
  have hall : OrderedMap.AllValues
      (fun v => v = .auto ∨ v ∈ entries.flatMap StyleEntry.styleValues) (expand names entries) := by
    refine OrderedMap.allValues_empty.insertAll fun entry hentry => ?_
    obtain ⟨e, he, hmem⟩ := List.mem_flatMap.1 hentry
    cases e with
    | wildcard =>
      obtain ⟨property, -, rfl⟩ := List.mem_map.1 hmem
      exact .inl rfl
    | values m => exact .inr (List.mem_flatMap.2 ⟨_, he, List.mem_map_of_mem hmem⟩)
  exact hall entry h

namespace Sketch

/-- The style values that were interpolated, each with its parameters. -/
def styles (k : Sketch τ) : List (StyleValue τ × Params τ) :=
  k.events.filterMap fun
    | .style value params => some (value, params)
    | _ => none

theorem mem_styles {k : Sketch τ} {value : StyleValue τ} {params : Params τ} :
    (value, params) ∈ k.styles ↔ .style value params ∈ k.events := by
  unfold styles
  rw [List.mem_filterMap]
  constructor
  · rintro ⟨event, hevent, hstyle⟩
    cases event with
    | style value' params' =>
      cases hstyle
      exact hevent
    | _ => cases hstyle
  · exact fun h => ⟨_, h, rfl⟩

/-- A report interpolates no style. -/
@[simp] theorem styles_report (ds : List Diagnostic) (k : Sketch τ) :
    (k.report ds).styles = k.styles := by
  have hnone : (ds.map Event.report : List (Event τ)).filterMap
      (fun | .style value params => some (value, params) | _ => none) = [] := by
    rw [List.filterMap_eq_nil_iff]
    intro event hevent
    obtain ⟨d, -, rfl⟩ := List.mem_map.1 hevent
    rfl
  show (k.events ++ _).filterMap _ = _
  rw [List.filterMap_append, hnone, List.append_nil]
  rfl

/-- Writing interpolates each value that the entries stand for. -/
theorem styles_write (entries : List (StyleEntry τ)) (k : Sketch τ) :
    (k.write entries).styles = k.styles ++
      (expand (k.names k.element) entries).entries.map fun entry => (entry.2, k.params) := by
  show (k.events ++ _).filterMap _ = _
  rw [List.filterMap_append, List.filterMap_map]
  exact congrArg (k.styles ++ ·) (congrFun
    (List.filterMap_eq_map (f := fun entry : String × StyleValue τ => (entry.2, k.params))) _)

/-- What is written stands in the entries, unless it is a wildcard. -/
theorem mem_styles_write {entries : List (StyleEntry τ)} {k : Sketch τ}
    {p : StyleValue τ × Params τ} (h : p ∈ (k.write entries).styles) :
    p ∈ k.styles ∨ p.2 = k.params ∧ (p.1 = .auto ∨ p.1 ∈ entries.flatMap StyleEntry.styleValues) := by
  rw [styles_write, List.mem_append] at h
  refine h.imp_right fun h => ?_
  obtain ⟨entry, hentry, rfl⟩ := List.mem_map.1 h
  exact ⟨rfl, mem_expand hentry⟩

/-- The report of a query without matches is no style. -/
@[simp] theorem styles_openQuery (q : Selection) (elements : List ElementId) (k : Sketch τ) :
    (k.openQuery q elements).styles = k.styles := by
  unfold openQuery
  split
  · exact styles_report _ k
  · rfl

/-- What comes of one thing after another comes of one of them. -/
theorem mem_styles_foldl {α : Type} {f : Sketch τ → α → Sketch τ} {as : List α} {k : Sketch τ}
    {p : StyleValue τ × Params τ} (h : p ∈ (as.foldl f k).styles) :
    p ∈ k.styles ∨ ∃ pre a post, as = pre ++ a :: post ∧ p ∉ (pre.foldl f k).styles ∧
      p ∈ (f (pre.foldl f k) a).styles := by
  induction as generalizing k with
  | nil => exact .inl h
  | cons a as ih =>
    -- the first one after which it is there
    by_cases hk : p ∈ k.styles
    · exact .inl hk
    · refine .inr ?_
      rcases ih h with ha | ⟨pre, b, post, rfl, hnot, hmem⟩
      · exact ⟨[], a, as, rfl, hk, ha⟩
      · exact ⟨a :: pre, b, post, rfl, hnot, hmem⟩

variable [Quantity τ]

/-- Parameters are not style values. -/
@[simp] theorem styles_update (keep : Bool) (options : Option (Options τ)) (k : Sketch τ) :
    (k.update keep options).styles = k.styles := by
  -- the events are about scalars, whichever of the parameters are kept
  have hnone : ∀ (declared : List (String × Scalar τ)) (params : Params τ),
      (paramEvents keep declared params).filterMap
        (fun | .style value params => some (value, params) | _ => none) = [] := by
    intro declared
    induction declared with
    | nil => exact fun _ => rfl
    | cons entry rest ih =>
      intro params
      unfold paramEvents
      split
      · exact ih params
      · exact ih _
  cases options with
  | none => rfl
  | some o =>
    show (k.events ++ _).filterMap _ = _
    rw [List.filterMap_append, hnone, List.append_nil]
    rfl

@[simp] theorem styles_enter (options : Option (Options τ)) (element : ElementId) (k : Sketch τ) :
    (k.enter options element).styles = k.styles :=
  styles_update false options _

omit [Quantity τ] in
@[simp] theorem styles_readTiming (timing : Timing τ) (allowNegative : Bool) (k : Sketch τ) :
    (k.readTiming timing allowNegative).styles = k.styles := by
  cases timing with
  | fixed t => rfl
  | expression text =>
    show (k.events ++ [Event.timing _ _ _]).filterMap _ = _
    rw [List.filterMap_append]
    exact List.append_nil _

omit [Quantity τ] in
@[simp] theorem styles_referenceDelay (options : Option (Options τ)) (k : Sketch τ) :
    (k.referenceDelay options).styles = k.styles := by
  unfold referenceDelay
  split
  · rfl
  · split
    · rfl
    · show (k.events ++ [Event.scalar _ _]).filterMap _ = _
      rw [List.filterMap_append]
      exact List.append_nil _

@[simp] theorem styles_openUse (defaults options : Option (Options τ)) (k : Sketch τ) :
    (k.openUse defaults options).styles = k.styles := by
  simp [openUse]

omit [Quantity τ] in
@[simp] theorem styles_openStagger (timing : Timing τ) (k : Sketch τ) :
    (k.openStagger timing).styles = k.styles := by
  unfold openStagger
  split
  · exact styles_readTiming timing true k
  · exact styles_report _ k

/-- The styles of keyframes are interpolated with the parameters around them. -/
theorem mem_styles_keyframes {steps : List (StyleStep τ)} {k : Sketch τ}
    {p : StyleValue τ × Params τ} (h : p ∈ (k.keyframes steps).styles) :
    p ∈ k.styles ∨ p.2 = k.params ∧ (p.1 = .auto ∨ ∃ step ∈ steps, p.1 ∈ step.styleValues) := by
  unfold keyframes at h
  split at h
  · rcases mem_styles_foldl h with h | ⟨pre, step, post, rfl, hnot, hmem⟩
    · exact .inl (styles_enter none k.element k ▸ h)
    · -- the keyframes before do not change the parameters
      have hkeeps := keeps_foldl (fun k (step : StyleStep τ) => (rfl : Keeps k (k.write step.entries)))
        pre (k.enter none k.element)
      refine .inr ?_
      obtain ⟨hparams, hvalue⟩ := (mem_styles_write hmem).resolve_left hnot
      refine ⟨hparams.trans hkeeps.params, hvalue.imp_right fun hvalue => ?_⟩
      exact ⟨step, List.mem_append_right _ List.mem_cons_self, hvalue⟩
  · rw [styles_report] at h
    exact .inl h

/-- The styles of an animated step are those of its target. -/
theorem mem_styles_animate {timing : Timing τ} {target : Target τ} {k : Sketch τ}
    {p : StyleValue τ × Params τ} (h : p ∈ (k.animate timing target).styles) :
    p ∈ k.styles ∨ p.2 = k.params ∧
      (p.1 = .auto ∨ ∃ step ∈ target.styleSteps, p.1 ∈ step.styleValues) := by
  let opened := (k.readTiming timing false).withTimings true
  have hstyles : opened.styles = k.styles := styles_readTiming timing false k
  have hparams : opened.params = k.params := (keeps_readTiming timing false k).params
  -- reading the timing interpolates no style and keeps the parameters
  change p ∈ (opened.moveTo target).styles at h
  rw [← hstyles, ← hparams]
  cases target with
  | style step =>
    refine (mem_styles_write h).imp_right fun ⟨hparams, hvalue⟩ => ⟨hparams, ?_⟩
    exact hvalue.imp_right fun hvalue => ⟨step, List.mem_singleton_self step, hvalue⟩
  | keyframes steps => exact mem_styles_keyframes h

@[simp] theorem styles_openSequence (options : Option (Options τ)) (k : Sketch τ) :
    (k.openSequence options).styles = k.styles := by
  unfold openSequence
  split
  · rfl
  · exact styles_enter _ _ k

/-- The styles of a sequence are those of its steps. -/
theorem styles_sequence (draws : List (Sketch τ → Sketch τ)) (options : Option (Options τ))
    (k : Sketch τ) :
    (k.sequence draws options).styles = ((k.openSequence options).follow draws).styles := by
  unfold sequence
  split <;> rfl

theorem follow_sketches (setting : Setting τ) (steps : List (Animation τ)) (k : Sketch τ) :
    k.follow (sketches setting steps) = steps.foldl (fun k step => step.sketch setting k) k := by
  rw [sketches_eq_map, follow, List.foldl_map]

theorem group_sketches (setting : Setting τ) (steps : List (Animation τ))
    (options : Option (Options τ)) (k : Sketch τ) :
    k.group (sketches setting steps) options =
      steps.foldl (fun k step => k.inScope options k.element (step.sketch setting)) k := by
  rw [sketches_eq_map, group, List.foldl_map]

end Sketch

variable [Quantity τ]

/-- A style value stands in a visited node, or is that of a wildcard there, and is interpolated
with the parameters in force. -/
def Interpolates (setting : Setting τ) (tree : Animation τ) (w : Walk τ)
    (p : StyleValue τ × Params τ) : Prop :=
  ∃ node u, Visit setting tree w node u ∧ p.2 = u.scope.options.params ∧
    (p.1 = .auto ∨ ∃ step ∈ node.styleSteps, p.1 ∈ step.styleValues)

/-- What is interpolated below a node is interpolated below a larger one. -/
theorem Interpolates.mono {setting : Setting τ} {inner outer : Animation τ} {v w : Walk τ}
    {p : StyleValue τ × Params τ} (hp : Interpolates setting inner v p)
    (h : ∀ {node u}, Visit setting inner v node u → Visit setting outer w node u) :
    Interpolates setting outer w p := by
  obtain ⟨node, u, hvisit, hparams⟩ := hp
  exact ⟨node, u, h hvisit, hparams⟩

section Draws

open Walk (Depicts Draws)

variable {setting : Setting τ} {base : StyleValue τ → Prop} {lineage : Nat}

theorem Animation.draws_list (hbase : setting.Provides base) (lineage : Nat)
    (steps : List (Animation τ)) :
    List.Forall₂ (Draws base lineage) (sketches setting steps) (bodies setting steps) :=
  forall₂_draws fun step _ => step.draws hbase lineage

/-- After some branches of a group have been drawn, the next one starts from their sketch. -/
theorem Walk.Depicts.atBranch {k : Sketch τ} {w : Walk τ} (h : Depicts base lineage k w)
    (hbase : setting.Provides base) (options : Option (Options τ)) (done : List (Animation τ)) :
    Depicts base lineage ((k.group (sketches setting done) options).enter options k.element)
      (w.atBranch options (bodies setting done)) := by
  obtain ⟨hdone, -⟩ := h.branches hbase.auto (Animation.draws_list hbase lineage done) options
    w.currentTime
  have hopen := hdone.openBranch hbase.auto options
  rwa [(k.keeps_group _ options).stays.element] at hopen

/-- After some matches have been drawn, the next one starts from their sketch. -/
theorem Walk.Depicts.beforeMatch {k : Sketch τ} {w : Walk τ} (h : Depicts base lineage k w)
    (hbase : setting.Provides base) (animation : Animation τ) (q : Selection)
    (options : Option (Options τ)) (done : List ElementId) :
    Depicts base lineage ((k.openQuery q (setting.select k.element q)).matched
        (animation.sketch setting) options done)
      (w.beforeMatch setting (animation.body setting) q options done) := by
  rw [← h.element]
  let opened := w.openQuery q (setting.select w.scope.element q) options
  have hnone : ∀ id, none = some id → Walk.Owns lineage opened id := nofun
  exact ((h.openQuery hbase.auto q _ options).matchesFrom hbase.auto
    (animation.draws hbase lineage) options done 0 w.currentTime hnone).1

/-- The drawing of a tree interpolates what the tree interpolates. -/
theorem Animation.mem_styles_sketch (hbase : setting.Provides base) {tree : Animation τ}
    {k : Sketch τ} {w : Walk τ} (h : Depicts base lineage k w) {p : StyleValue τ × Params τ}
    (hp : p ∈ (tree.sketch setting k).styles) : p ∈ k.styles ∨ Interpolates setting tree w p := by
  have hauto := hbase.auto
  -- a value that is not in the sketch before comes of the first child in whose drawing it is
  induction tree using Animation.induct generalizing k w with
  | trigger | state | transition => exact .inl hp
  | sequence steps options ih =>
    change p ∈ (k.sequence _ options).styles at hp
    rw [Sketch.styles_sequence, Sketch.follow_sketches] at hp
    rcases Sketch.mem_styles_foldl hp with hk | ⟨pre, step, post, rfl, hnot, hmem⟩
    · exact .inl (Sketch.styles_openSequence options k ▸ hk)
    · -- the steps before lead to the walk in which this one is visited
      rw [← Sketch.follow_sketches] at hnot hmem
      have hpre := (h.openSequence hauto options).follow (draws_list hbase lineage pre)
      exact .inr (((ih step (by simp) hpre hmem).resolve_left hnot).mono .step)
  | group steps options ih =>
    change p ∈ (k.group _ options).styles at hp
    rw [Sketch.group_sketches] at hp
    rcases Sketch.mem_styles_foldl hp with hk | ⟨pre, step, post, rfl, hnot, hmem⟩
    · exact .inl hk
    · -- each branch starts from what the branches before it left
      rw [← Sketch.group_sketches] at hnot hmem
      rw [(k.keeps_group _ options).stays.element] at hmem
      have hvisited := ih step (by simp) (h.atBranch hbase options pre) hmem
      rw [Sketch.styles_enter] at hvisited
      exact .inr ((hvisited.resolve_left hnot).mono .branch)
  | animate timing target =>
    rcases Sketch.mem_styles_animate hp with hk | ⟨hparams, hvalue⟩
    · exact .inl hk
    · refine .inr ⟨_, w, .here _ w, hparams.trans h.params.symm, ?_⟩
      cases target <;> exact hvalue
  | keyframes steps =>
    rcases Sketch.mem_styles_keyframes hp with hk | ⟨hparams, hvalue⟩
    · exact .inl hk
    · exact .inr ⟨_, w, .here _ w, hparams.trans h.params.symm, hvalue⟩
  | style step =>
    rcases Sketch.mem_styles_write hp with hk | ⟨hparams, hvalue⟩
    · exact .inl hk
    · refine .inr ⟨_, w, .here _ w, hparams.trans h.params.symm, hvalue.imp_right fun hvalue => ?_⟩
      exact ⟨step, List.mem_singleton_self step, hvalue⟩
  | reference animation options ih =>
    have hvisited := ih (h.update true options) hp
    rw [Sketch.styles_update] at hvisited
    exact hvisited.imp_right fun hinner => hinner.mono .reference
  | animateChild options =>
    refine .inl ?_
    -- the scope of delegated animations is empty, so nothing is written in it
    change p ∈ (k.animateChild setting options).styles at hp
    unfold Sketch.animateChild at hp
    split at hp
    · exact Sketch.styles_enter options k.element k ▸ hp
    · exact hp
  | animateRef animation defaults options ih =>
    have hvisited := ih ((h.openUse hauto defaults options).update true defaults) hp
    rw [Sketch.styles_update, Sketch.styles_openUse] at hvisited
    exact hvisited.imp_right fun hinner => hinner.mono .use
  | query q animation options ih =>
    change p ∈ (k.query setting _ q options).styles at hp
    rcases Sketch.mem_styles_foldl hp with hk | ⟨pre, element, post, hselected, hnot, hmem⟩
    · exact .inl (Sketch.styles_openQuery q _ k ▸ hk)
    · -- and each match from what the matches before it left
      have hopen := (h.beforeMatch hbase animation q options pre).openMatch hauto options element
        pre.length
      have hvisited := ih hopen hmem
      rw [Sketch.styles_enter] at hvisited
      rw [← h.element] at hselected
      exact .inr ((hvisited.resolve_left hnot).mono (.match hselected))
  | stagger timing animation ih =>
    have hvisited := ih (h.atStagger hauto timing) hp
    rw [Sketch.styles_openStagger] at hvisited
    exact hvisited.imp_right fun hinner => hinner.mono .stagger

end Draws

/-! ### Runs -/

/-- A sketch of the walk with the root timeline. -/
def Sketch.blank (root : ElementId) (setup : Setup τ) (sink : List Diagnostic) : Sketch τ where
  element := root
  params := setup.params
  names := fun _ => []
  animated := false
  nested := false
  events := sink.map .report

namespace Walk

variable {base : StyleValue τ → Prop}

/-- The walk with the root timeline is depicted by a blank sketch. -/
theorem depicts_blank (base : StyleValue τ → Prop) (root : ElementId) (setup : Setup τ)
    (sink : List Diagnostic) :
    (blank root setup sink).Depicts base 0 (Sketch.blank root setup sink) where
  consistent := consistent_blank root setup sink
  valid := valid_blank root setup sink
  lineage_eq := rfl
  element := rfl
  params := rfl
  names e := by
    show ((Score.enter _ 0 root 0).2.known 0 e).keys = []
    rw [Score.known_enter]
    rfl
  animated := rfl
  nested := rfl
  diagnostics := (Event.allReports_map_report sink).symm
  stock := by
    have hempty : (Score.empty : Score τ).Stocked
      (Event.Made base (Sketch.blank root setup sink).events) := Score.stocked_empty
    exact Score.Stocked.enter (s := { (Score.empty : Score τ) with lineages := 1 })
      ⟨hempty.timeline, hempty.known, hempty.placed⟩ 0 root 0

/-- The starting styles are the first thing that is drawn. -/
theorem depicts_start (hauto : base .auto) (root : ElementId) (setup : Setup τ)
    (sink : List Diagnostic) :
    (start root setup sink).Depicts base 0
      ((Sketch.blank root setup sink).write [.values setup.startingStyles]) := by
  rw [start_eq]
  exact ((depicts_blank base root setup sink).delay hauto _).writeAt hauto _ none

end Walk

/-- Where the style values in the instructions of a run come from. -/
inductive Comes (host : Host) (root : ElementId) (tree : Animation τ) (setup : Setup τ)
    (delegated : InstructionMap τ) : StyleValue τ → Prop
  | auto : Comes host root tree setup delegated .auto
  | delegated {element : ElementId} {i : Instruction τ} {k : Keyframe τ} {v : StyleValue τ}
      (hi : i ∈ delegated.instructions element) (hk : k ∈ i.keyframes)
      (hv : v ∈ StyleMap.values k.styles) : Comes host root tree setup delegated v
  | starting {v : StyleValue τ} (hv : v ∈ StyleMap.values setup.startingStyles) :
      Comes host root tree setup delegated (v.interpolate setup.params).1
  | final {v : StyleValue τ} (hv : v ∈ StyleMap.values setup.finalStyles) :
      Comes host root tree setup delegated (v.interpolate
        (Walk.run (setup.setting host delegated) root tree setup []).scope.options.params).1
  | visited {node : Animation τ} {u : Walk τ} {step : StyleStep τ} {v : StyleValue τ}
      (hvisit : Visit (setup.setting host delegated) tree (.start root setup []) node u)
      (hstep : step ∈ node.styleSteps) (hv : v ∈ step.styleValues) :
      Comes host root tree setup delegated (v.interpolate u.scope.options.params).1

section Comes

variable {host : Host} {root : ElementId} {tree : Animation τ} {setup : Setup τ}
  {delegated : InstructionMap τ}

/-- Every style value of a finished walk comes from somewhere. -/
theorem stocked_run :
    (Walk.run (setup.setting host delegated) root tree setup []).score.Stocked
      (Comes host root tree setup delegated) := by
  -- what is there before the run: `auto`, and the values of delegated instructions
  let base : StyleValue τ → Prop := fun v => v = .auto ∨
    ∃ element, ∃ i ∈ delegated.instructions element, ∃ k ∈ i.keyframes, v ∈ StyleMap.values k.styles
  have hbase : (setup.setting host delegated).Provides base :=
    ⟨.inl rfl, fun element i hi k hk entry hentry =>
      .inr ⟨element, i, hi, k, hk, List.mem_map_of_mem hentry⟩⟩
  have hstart := Walk.depicts_start hbase.auto root setup []
  have hrun := (tree.draws hbase 0).depicts hstart
  refine hrun.stock.mono fun v hv => ?_
  rcases hv with (rfl | ⟨element, i, hi, k, hk, hv⟩) | ⟨value, params, hevent, rfl⟩
  · exact .auto
  · exact .delegated hi hk hv
  · -- a value that was interpolated is one of the starting styles or stands in a visited node
    rcases tree.mem_styles_sketch hbase hstart (Sketch.mem_styles.2 hevent) with h | h
    · obtain ⟨hparams, hvalue⟩ := (Sketch.mem_styles_write h).resolve_left nofun
      cases hparams
      rcases hvalue with rfl | hvalue
      · exact .auto
      · refine .starting ?_
        simpa [StyleEntry.styleValues] using hvalue
    · obtain ⟨node, u, hvisit, hparams, rfl | ⟨step, hstep, hvalue⟩⟩ := h
      · exact .auto
      · cases hparams
        exact .visited hvisit hstep hvalue

/-- The final styles add only their own values. -/
theorem stocked_finish :
    ((Walk.run (setup.setting host delegated) root tree setup []).finish root setup).score.Stocked
      (Comes host root tree setup delegated) := by
  let w := Walk.run (setup.setting host delegated) root tree setup []
  have hrun : w.score.Stocked (Comes host root tree setup delegated) := stocked_run
  show (w.finish root setup).score.Stocked _
  -- nothing is added where there are no final styles or no timeline of the root
  unfold Walk.finish
  split
  · exact hrun
  · split
    · next id _ =>
      refine hrun.edit (f := (·.change (.write [.values setup.finalStyles] none
        w.scope.options.params))) ((hrun.scene id).change .auto fun entry hentry => ?_)
      rw [Scene.flatten_eq_expand] at hentry
      rcases mem_expand hentry with hvalue | hvalue
      · rw [hvalue]
        exact .auto
      · refine .final ?_
        simpa [StyleEntry.styleValues] using hvalue
    · exact hrun

/-- Every style value in an emitted instruction comes from somewhere. -/
theorem comes_of_mem_instructions {i : Instruction τ}
    (h : i ∈ (compile host root tree setup delegated).instructions) :
    i.Stocked (Comes host root tree setup delegated) := by
  rcases mem_instructions h with hempty | ⟨e, he, rfl⟩
  · rw [hempty, List.mem_singleton] at h
    rw [h]
    exact nofun
  · refine stocked_finish.instruction ?_
    rw [Walk.order_finish]
    exact (List.mem_filter.1 he).1

end Comes

end Choreography
