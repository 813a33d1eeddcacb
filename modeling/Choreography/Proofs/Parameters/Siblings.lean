/-
Choreography/Proofs/Parameters/Siblings.lean

What a later step sees of the parameters of an earlier one.

Two trees that are the same but for one node each are compiled side by side
(`Counterparts`).  If these nodes differ in their parameters only, the two runs come to them in
walks whose sketches agree, since whatever came before has left its scope
(`Counterparts.agrees`).

If the nodes are sequences or groups, and the difference is in one of their steps, what a later
step sees of it are the parameters that the earlier steps have exposed, and for the steps of a
group nothing (`Sketch.same_params_atStep_iff`).  If these come to the same, the later step is
compiled in the same way in both runs (`Animation.SameIn`).

Main result: `siblings_iff`.
-/
import Choreography.Proofs.Parameters

namespace Choreography

variable {τ : Type} [Quantity τ]

/-! ### Two runs side by side -/

/-- Two trees that are the same but for one node each, and the walks in which they and these
nodes are compiled. -/
inductive Counterparts (setting : Setting τ) : Animation τ → Animation τ → Walk τ → Walk τ →
    Animation τ → Animation τ → Walk τ → Walk τ → Prop
  | here (tree tree' : Animation τ) (w w' : Walk τ) :
      Counterparts setting tree tree' w w' tree tree' w w'
  | step {pre post : List (Animation τ)} {step step' : Animation τ}
      {options : Option (Options τ)} {w w' : Walk τ} {node node' : Animation τ} {v v' : Walk τ} :
      Counterparts setting step step' ((w.openSequence options).follow (bodies setting pre))
          ((w'.openSequence options).follow (bodies setting pre)) node node' v v' →
        Counterparts setting (.sequence (pre ++ step :: post) options)
          (.sequence (pre ++ step' :: post) options) w w' node node' v v'
  | branch {pre post : List (Animation τ)} {step step' : Animation τ}
      {options : Option (Options τ)} {w w' : Walk τ} {node node' : Animation τ} {v v' : Walk τ} :
      Counterparts setting step step' (w.atBranch options (bodies setting pre))
          (w'.atBranch options (bodies setting pre)) node node' v v' →
        Counterparts setting (.group (pre ++ step :: post) options)
          (.group (pre ++ step' :: post) options) w w' node node' v v'
  | reference {animation animation' : Animation τ} {options : Option (Options τ)}
      {w w' : Walk τ} {node node' : Animation τ} {v v' : Walk τ} :
      Counterparts setting animation animation' (w.update true options) (w'.update true options)
          node node' v v' →
        Counterparts setting (.reference animation options) (.reference animation' options) w w'
          node node' v v'
  | use {animation animation' : Animation τ} {defaults options : Option (Options τ)}
      {w w' : Walk τ} {node node' : Animation τ} {v v' : Walk τ} :
      Counterparts setting animation animation'
          ((w.openUse defaults options).update true defaults)
          ((w'.openUse defaults options).update true defaults) node node' v v' →
        Counterparts setting (.animateRef animation defaults options)
          (.animateRef animation' defaults options) w w' node node' v v'
  | match {q : Selection} {animation animation' : Animation τ} {options : Option (Options τ)}
      {w w' : Walk τ} {pre post : List ElementId} {element : ElementId}
      {node node' : Animation τ} {v v' : Walk τ}
      (selected : setting.select w.scope.element q = pre ++ element :: post) :
      Counterparts setting animation animation'
          ((w.beforeMatch setting (animation.body setting) q options pre).openMatch options element
            pre.length)
          ((w'.beforeMatch setting (animation'.body setting) q options pre).openMatch options
            element pre.length) node node' v v' →
        Counterparts setting (.query q animation options) (.query q animation' options) w w'
          node node' v v'
  | stagger {timing : Timing τ} {animation animation' : Animation τ} {w w' : Walk τ}
      {node node' : Animation τ} {v v' : Walk τ} :
      Counterparts setting animation animation' (w.atStagger timing) (w'.atStagger timing)
          node node' v v' →
        Counterparts setting (.stagger timing animation) (.stagger timing animation') w w'
          node node' v v'

namespace Counterparts

open Walk (Depicts)

variable {setting : Setting τ} {tree tree' node node' : Animation τ} {w w' v v' : Walk τ}

/-- If the nodes differ in their parameters only, so do the trees. -/
theorem withoutParams_eq (h : Counterparts setting tree tree' w w' node node' v v')
    (hnode : node.withoutParams = node'.withoutParams) :
    tree.withoutParams = tree'.withoutParams := by
  -- on the path to the nodes, beside which the trees are the same
  induction h with
  | here => exact hnode
  | step _ ih => simp [Animation.withoutParams, withoutParamsOf_eq_map, ih hnode]
  | branch _ ih => simp [Animation.withoutParams, withoutParamsOf_eq_map, ih hnode]
  | reference _ ih => simp [Animation.withoutParams, ih hnode]
  | use _ ih => simp [Animation.withoutParams, ih hnode]
  | «match» _ _ ih => simp [Animation.withoutParams, ih hnode]
  | stagger _ ih => simp [Animation.withoutParams, ih hnode]

end Counterparts

namespace Sketch

variable {before before' : List Diagnostic} {k k' : Sketch τ}

/-- Agreement may be read from either side. -/
theorem Agrees.symm (h : Agrees before before' k k') : Agrees before' before k' k where
  element := h.element.symm
  params := h.params.symm
  names := h.names.symm
  animated := h.animated.symm
  nested := h.nested.symm
  reports := h.reports.imp fun _ => And.symm

theorem Agrees.alike (h : Agrees before before' k k') : Alike k k' :=
  ⟨h.element, h.names, h.animated⟩

/-- Sketches that are alike agree from now on if the parameters and the surroundings are the
same. -/
theorem Alike.agrees (h : Alike k k') (hparams : Params.Same k.params k'.params)
    (hnested : k'.nested = k.nested) :
    Agrees (Event.allReports k.events) (Event.allReports k'.events) k k' where
  element := h.element
  params := hparams
  names := h.names
  animated := h.animated
  nested := hnested
  reports := ⟨[], (List.append_nil _).symm, (List.append_nil _).symm⟩

theorem animated_enter (options : Option (Options τ)) (element : ElementId) (k : Sketch τ) :
    (k.enter options element).animated = k.animated := by
  cases options <;> rfl

theorem nested_enter (options : Option (Options τ)) (element : ElementId) (k : Sketch τ) :
    (k.enter options element).nested = true := by
  cases options <;> rfl

theorem params_enter (options : Option (Options τ)) (element : ElementId) (k : Sketch τ) :
    (k.enter options element).params =
      (Overrides.addParams false (Options.declared options) k.params).1 := by
  cases options <;> rfl

end Sketch

/-! ### Where a step is compiled -/

/-- A sequence or a group. -/
def Animation.ofSteps (grouped : Bool) (steps : List (Animation τ))
    (options : Option (Options τ)) : Animation τ :=
  if grouped then .group steps options else .sequence steps options

/-- The walk in which the next step of a sequence or a group is compiled, when some are done. -/
def Walk.atStep (setting : Setting τ) (grouped : Bool) (options : Option (Options τ))
    (done : List (Animation τ)) (w : Walk τ) : Walk τ :=
  if grouped then w.atBranch options (bodies setting done)
  else (w.openSequence options).follow (bodies setting done)

theorem visit_atStep (setting : Setting τ) (grouped : Bool) (options : Option (Options τ))
    (pre post : List (Animation τ)) (step : Animation τ) (w : Walk τ) :
    Visit setting (.ofSteps grouped (pre ++ step :: post) options) w step
      (w.atStep setting grouped options pre) := by
  cases grouped with
  | true => exact .branch (.here _ _)
  | false => exact .step (.here _ _)

namespace Sketch

/-- The sketch in which the next step of a sequence or a group is drawn, when some are done. -/
def atStep (setting : Setting τ) (grouped : Bool) (options : Option (Options τ))
    (done : List (Animation τ)) (k : Sketch τ) : Sketch τ :=
  if grouped then (k.group (sketches setting done) options).enter options k.element
  else (k.openSequence options).follow (sketches setting done)

variable (setting : Setting τ)

theorem congruent_atStep (grouped : Bool) (options : Option (Options τ))
    (done : List (Animation τ)) : Congruent (atStep setting grouped options done) := by
  intro before before' k k' h
  cases grouped with
  | true =>
    have hdone := congruent_group (congruent_sketches setting done) options h
    show Agrees before before' (enter options k.element _) (enter options k'.element _)
    rw [h.element]
    exact hdone.enter options k.element
  | false =>
    exact congruent_follow (congruent_sketches setting done) (congruent_openSequence options h)

theorem forall_stays_sketches (steps : List (Animation τ)) :
    ∀ draw ∈ sketches setting steps, ∀ k, Stays k (draw k) :=
  forall_mem_sketches fun step _ => step.stays_sketch setting

theorem calm_atStep (grouped : Bool) (options : Option (Options τ)) (done : List (Animation τ))
    {k : Sketch τ} (h : k.animated = false) :
    (k.atStep setting grouped options done).animated = false := by
  cases grouped with
  | true => exact (animated_enter _ _ _).trans ((k.keeps_group _ options).animated.trans h)
  | false =>
    -- neither the scope of the sequence nor a step leaves an animated step open
    have hopen := (alike_openSequence options k).animated.trans h
    exact (stays_follow (forall_stays_sketches setting done) _).calm hopen

/-- Steps that differ in parameters only have drawings that are twins. -/
theorem forall₂_twins {steps steps' : List (Animation τ)}
    (h : steps.map Animation.withoutParams = steps'.map Animation.withoutParams) :
    List.Forall₂ Twins (sketches setting steps) (sketches setting steps') := by
  rw [sketches_eq_map, sketches_eq_map, List.forall₂_map_left_iff, List.forall₂_map_right_iff]
  -- the lists without parameters are equal, so the steps can be taken in pairs
  rw [← List.forall₂_eq_eq_eq, List.forall₂_map_left_iff, List.forall₂_map_right_iff] at h
  exact h.imp fun _ _ => Animation.twins_of_withoutParams setting

/-- What stands around a step, and the names that are known in it, are not touched by the
parameters of the steps before it. -/
theorem Alike.atStep {k k' : Sketch τ} (h : Alike k k') (hnested : k'.nested = k.nested)
    (hcalm : k.animated = false) (grouped : Bool) (options : Option (Options τ))
    {done done' : List (Animation τ)}
    (hdone : done.map Animation.withoutParams = done'.map Animation.withoutParams) :
    Alike (k.atStep setting grouped options done) (k'.atStep setting grouped options done') ∧
      (k'.atStep setting grouped options done').nested =
        (k.atStep setting grouped options done).nested := by
  have htwins := forall₂_twins setting hdone
  cases grouped with
  | true =>
    refine ⟨?_, (nested_enter _ _ _).trans (nested_enter _ _ _).symm⟩
    show Alike (Sketch.enter options k.element _) (Sketch.enter options k'.element _)
    rw [h.element]
    exact (alike_group htwins options options hcalm h).enter options options k.element
  | false =>
    have hopen := alike_openSequence options k
    have hopen' := alike_openSequence options k'
    have hnames := alike_follow htwins (hopen.animated.trans hcalm) ((hopen.symm.trans h).trans hopen')
    refine ⟨hnames, ?_⟩
    have hstays := stays_follow (forall_stays_sketches setting done) (k.openSequence options)
    have hstays' := stays_follow (forall_stays_sketches setting done') (k'.openSequence options)
    refine hstays'.nested.trans (Eq.trans ?_ hstays.nested.symm)
    -- a sequence nests just if it has options, in both sketches
    unfold openSequence
    cases Walk.scoping options with
    | none => exact hnested
    | some o => exact (nested_enter _ _ _).trans (nested_enter _ _ _).symm

/-- The parameters in which a branch is drawn. -/
theorem params_atStep_group (options : Option (Options τ)) (done : List (Animation τ))
    (k : Sketch τ) : (k.atStep setting true options done).params =
      (Overrides.addParams false (Options.declared options) k.params).1 :=
  (params_enter _ _ _).trans (by rw [(k.keeps_group _ options).params])

/-- The parameters in which a step of a sequence is drawn. -/
theorem params_atStep_sequence (options : Option (Options τ)) (done more : List (Animation τ))
    (k : Sketch τ) : (k.atStep setting false options (done ++ more)).params =
      Params.extend (exposedOf more) (k.atStep setting false options done).params := by
  -- each step adds what it exposes, and the other nodes add nothing
  have hparams : ∀ (done : List (Animation τ)), (k.atStep setting false options done).params =
      Params.extend (exposedOf done) (k.openSequence options).params := fun done =>
    params_follow (fun step _ => step.params_sketch setting) _
  rw [hparams, hparams, exposedOf_append, Params.extend_append]

/-- A later step is drawn with the same parameters in two sketches if what the steps before it
expose comes to the same, and always if it is a branch of a group. -/
theorem same_params_atStep_iff {before before' : List Diagnostic} {k k' : Sketch τ}
    (h : Agrees before before' k k') (grouped : Bool) (options : Option (Options τ))
    (pre mid : List (Animation τ)) (step step' : Animation τ) :
    Params.Same (k.atStep setting grouped options (pre ++ step :: mid)).params
        (k'.atStep setting grouped options (pre ++ step' :: mid)).params ↔
      grouped = true ∨
        Params.Same ((k.atStep setting grouped options pre).params.extend
            (step.exposed ++ exposedOf mid))
          ((k.atStep setting grouped options pre).params.extend
            (step'.exposed ++ exposedOf mid)) := by
  cases grouped with
  | true =>
    -- a branch starts with the parameters of the group, whatever the others declare
    rw [params_atStep_group, params_atStep_group]
    exact iff_of_true (h.params.addParams false _).1 (.inl rfl)
  | false =>
    -- the steps before are the same, so up to there the parameters are
    have hpre := (congruent_atStep setting false options pre h).params
    rw [params_atStep_sequence, params_atStep_sequence, exposedOf, exposedOf]
    have hafter := hpre.extend (step'.exposed ++ exposedOf mid)
    exact ⟨fun hsame => .inr (hsame.trans hafter.symm),
      fun hsame => (hsame.resolve_left Bool.false_ne_true).trans hafter⟩

end Sketch

/-! ### Nodes that differ in parameters -/

namespace Counterparts

open Walk (Depicts)

variable {setting : Setting τ} {base : StyleValue τ → Prop} {lineage : Nat}
  {tree tree' node node' : Animation τ} {w w' v v' : Walk τ} {before before' : List Diagnostic}

theorem depicts_atStep (hbase : setting.Provides base) {k : Sketch τ}
    (h : Depicts base lineage k w) (grouped : Bool) (options : Option (Options τ))
    (done : List (Animation τ)) : Depicts base lineage (k.atStep setting grouped options done)
      (w.atStep setting grouped options done) := by
  cases grouped with
  | true => exact h.atBranch hbase options done
  | false =>
    exact (h.openSequence hbase.auto options).follow (Animation.draws_list hbase lineage done)

/-- Matches of queries whose animations differ in parameters only. -/
theorem agrees_matched (setting : Setting τ) {animation animation' : Animation τ}
    (h : animation.withoutParams = animation'.withoutParams) (q : Selection)
    (options : Option (Options τ)) (done : List ElementId) {k k' : Sketch τ}
    (hk : k.Agrees before before' k') (hcalm : k.animated = false) :
    ∃ since since', Sketch.Agrees since since'
      ((k.openQuery q (setting.select k.element q)).matched (animation.sketch setting) options done)
      ((k'.openQuery q (setting.select k'.element q)).matched (animation'.sketch setting) options
        done) := by
  rw [hk.element]
  have hopen := Sketch.congruent_openQuery q (setting.select k.element q) hk
  have hopenCalm := (k.keeps_openQuery q (setting.select k.element q)).animated.trans hcalm
  -- matches are drawn in scopes, so the query keeps its own parameters
  have hkeeps : ∀ (draw : Sketch τ → Sketch τ) (k : Sketch τ),
      k.Keeps (k.matched draw options done) := fun draw k =>
    Sketch.keeps_foldl (fun k element => k.keeps_inScope options element draw) done k
  refine ⟨_, _, ((Animation.twins_of_withoutParams setting h).matched options options done hopenCalm
    hopen.alike).agrees ?_ ?_⟩
  · rw [(hkeeps _ _).params, (hkeeps _ _).params]
    exact hopen.params
  · rw [(hkeeps _ _).stays.nested, (hkeeps _ _).stays.nested]
    exact hopen.nested

/-- Runs that begin in walks whose sketches agree come to nodes that differ in their parameters
only in walks whose sketches agree. -/
theorem agrees (hbase : setting.Provides base)
    (h : Counterparts setting tree tree' w w' node node' v v')
    (hnode : node.withoutParams = node'.withoutParams) {k k' : Sketch τ}
    (hw : Depicts base lineage k w) (hw' : Depicts base lineage k' w')
    (hk : k.Agrees before before' k') (hcalm : k.animated = false) :
    Visit setting tree w node v ∧ Visit setting tree' w' node' v' ∧ ∃ K K' since since',
      Depicts base lineage K v ∧ Depicts base lineage K' v' ∧
        Sketch.Agrees since since' K K' ∧ K.animated = false := by
  have hauto := hbase.auto
  -- on the path to the nodes; sketches that agree are carried along it
  induction h generalizing k k' before before' with
  | here tree tree' w w' =>
    exact ⟨.here _ _, .here _ _, k, k', before, before', hw, hw', hk, hcalm⟩
  | @step pre post step step' options w w' node node' v v' _ ih =>
    obtain ⟨hv, hv', hmeet⟩ := ih hnode (depicts_atStep hbase hw false options pre)
      (depicts_atStep hbase hw' false options pre)
      (Sketch.congruent_atStep setting false options pre hk)
      (Sketch.calm_atStep setting false options pre hcalm)
    exact ⟨.step hv, .step hv', hmeet⟩
  | @branch pre post step step' options w w' node node' v v' _ ih =>
    obtain ⟨hv, hv', hmeet⟩ := ih hnode (depicts_atStep hbase hw true options pre)
      (depicts_atStep hbase hw' true options pre)
      (Sketch.congruent_atStep setting true options pre hk)
      (Sketch.calm_atStep setting true options pre hcalm)
    exact ⟨.branch hv, .branch hv', hmeet⟩
  | @reference animation animation' options w w' node node' v v' _ ih =>
    obtain ⟨hv, hv', hmeet⟩ := ih hnode (hw.update true options) (hw'.update true options)
      (hk.update true options) ((Sketch.stays_update true options k).calm hcalm)
    exact ⟨.reference hv, .reference hv', hmeet⟩
  | @use animation animation' defaults options w w' node node' v v' _ ih =>
    have hopen := Sketch.congruent_openUse defaults options hk
    have hopenCalm := (Sketch.alike_openUse defaults options k).animated.trans hcalm
    obtain ⟨hv, hv', hmeet⟩ := ih hnode ((hw.openUse hauto defaults options).update true defaults)
      ((hw'.openUse hauto defaults options).update true defaults) (hopen.update true defaults)
      ((Sketch.stays_update true defaults _).calm hopenCalm)
    exact ⟨.use hv, .use hv', hmeet⟩
  | @«match» q animation animation' options w w' pre post element node node' v v' selected h ih =>
    have helement : w'.scope.element = w.scope.element := by
      rw [hw'.element, hk.element, hw.element]
    -- the matches before this one may have reported different things, so only later reports count
    obtain ⟨since, since', hdone⟩ :=
      agrees_matched setting (h.withoutParams_eq hnode) q options pre hk hcalm
    have hkeeps : k.Keeps ((k.openQuery q (setting.select k.element q)).matched
        (animation.sketch setting) options pre) :=
      (k.keeps_openQuery q _).trans
        (Sketch.keeps_foldl (fun k element => k.keeps_inScope options element _) pre _)
    obtain ⟨hv, hv', hmeet⟩ := ih hnode
      ((hw.beforeMatch hbase animation q options pre).openMatch hauto options element pre.length)
      ((hw'.beforeMatch hbase animation' q options pre).openMatch hauto options element pre.length)
      (hdone.enter options element)
      ((Sketch.animated_enter _ _ _).trans (hkeeps.animated.trans hcalm))
    exact ⟨.match selected hv, .match (helement ▸ selected) hv', hmeet⟩
  | @stagger timing animation animation' w w' node node' v v' _ ih =>
    obtain ⟨hv, hv', hmeet⟩ := ih hnode (hw.atStagger hauto timing) (hw'.atStagger hauto timing)
      (Sketch.congruent_openStagger timing hk) ((k.keeps_openStagger timing).stays.calm hcalm)
    exact ⟨.stagger hv, .stagger hv', hmeet⟩

end Counterparts

/-- A node that is visited in one walk has a counterpart in any other, in the same tree. -/
theorem Visit.counterparts {setting : Setting τ} {tree node : Animation τ} {w u : Walk τ}
    (h : Visit setting tree w node u) (w' : Walk τ) :
    ∃ u', Counterparts setting tree tree w w' node node u u' := by
  induction h generalizing w' with
  | here tree w => exact ⟨w', .here _ _ _ _⟩
  | step _ ih => exact (ih _).imp fun _ h => .step h
  | branch _ ih => exact (ih _).imp fun _ h => .branch h
  | reference _ ih => exact (ih _).imp fun _ h => .reference h
  | use _ ih => exact (ih _).imp fun _ h => .use h
  | «match» selected _ ih => exact (ih _).imp fun _ h => .match selected h
  | stagger _ ih => exact (ih _).imp fun _ h => .stagger h

/-! ### Siblings -/

/-- A tree is compiled in the same way in two walks: with the same parameters, coming to the
same nodes for the same elements, where every text is interpolated to the same, and with the
same reports. -/
structure Animation.SameIn (setting : Setting τ) (tree : Animation τ) (v v' : Walk τ) : Prop where
  params : Params.Same v.scope.options.params v'.scope.options.params
  visits : ∀ node u, Visit setting tree v node u → ∃ u', Visit setting tree v' node u' ∧
    u'.scope.element = u.scope.element ∧
      ∀ t : Template, t.render u'.scope.options.params = t.render u.scope.options.params
  visits' : ∀ node u', Visit setting tree v' node u' → ∃ u, Visit setting tree v node u ∧
    u.scope.element = u'.scope.element ∧
      ∀ t : Template, t.render u.scope.options.params = t.render u'.scope.options.params
  reports : ∃ reports, (tree.body setting v).diagnostics = v.diagnostics ++ reports ∧
    (tree.body setting v').diagnostics = v'.diagnostics ++ reports

section Siblings

open Walk (Depicts)

variable {setting : Setting τ} {base : StyleValue τ → Prop} {lineage : Nat}

theorem Visit.exists_counterpart {before before' : List Diagnostic} (hbase : setting.Provides base)
    {tree node : Animation τ} {v u v' : Walk τ} (h : Visit setting tree v node u)
    {k k' : Sketch τ} (hv : Depicts base lineage k v) (hv' : Depicts base lineage k' v')
    (hk : k.Agrees before before' k') (hcalm : k.animated = false) :
    ∃ u', Visit setting tree v' node u' ∧ u'.scope.element = u.scope.element ∧
      ∀ t : Template, t.render u'.scope.options.params = t.render u.scope.options.params := by
  obtain ⟨u', hcounterparts⟩ := h.counterparts v'
  obtain ⟨-, hvisit, K, K', since, since', hu, hu', hK, -⟩ :=
    hcounterparts.agrees hbase rfl hv hv' hk hcalm
  refine ⟨u', hvisit, ?_, fun t => ?_⟩
  · rw [hu'.element, hu.element, hK.element]
  · -- a text is rendered with the parameters of the sketch, and these are the same
    rw [hu'.params, hu.params, hK.params.render]

/-- In walks with sketches that are alike, a tree is compiled in the same way if and only if the
parameters in force are the same. -/
theorem Animation.sameIn_iff (hbase : setting.Provides base) (tree : Animation τ)
    {k k' : Sketch τ} {v v' : Walk τ} (hv : Depicts base lineage k v)
    (hv' : Depicts base lineage k' v') (hk : k.Alike k') (hnested : k'.nested = k.nested)
    (hcalm : k.animated = false) :
    tree.SameIn setting v v' ↔ Params.Same k.params k'.params := by
  constructor
  · intro h
    rw [← hv.params, ← hv'.params]
    exact h.params
  · intro hparams
    -- from here on, only what is reported from now counts
    have hagrees := hk.agrees hparams hnested
    have hcalm' : k'.animated = false := hk.animated.trans hcalm
    refine ⟨?_, fun node u hu => hu.exists_counterpart hbase hv hv' hagrees hcalm,
      fun node u' hu' => hu'.exists_counterpart hbase hv' hv hagrees.symm hcalm',
      tree.reports_of_agrees hbase hv hv' hagrees⟩
    rw [hv.params, hv'.params]
    exact hparams

variable {host : Host} {root : ElementId} {setup : Setup τ} {delegated : InstructionMap τ}

/-- Of two trees that differ in the parameters declared in a step of a sequence or a group, a
later step is compiled in the same way if and only if these are the steps of a group, or what
the steps before it expose brings the same parameters into force. -/
theorem siblings_iff {tree tree' step step' sibling : Animation τ}
    {pre mid post : List (Animation τ)} {grouped : Bool} {options : Option (Options τ)}
    {w w' : Walk τ}
    (h : Counterparts (setup.setting host delegated) tree tree' (.start root setup [])
      (.start root setup []) (.ofSteps grouped (pre ++ step :: (mid ++ sibling :: post)) options)
      (.ofSteps grouped (pre ++ step' :: (mid ++ sibling :: post)) options) w w')
    (hstep : step.withoutParams = step'.withoutParams) :
    let setting := setup.setting host delegated
    let before := (w.atStep setting grouped options pre).scope.options.params
    let v := w.atStep setting grouped options (pre ++ step :: mid)
    let v' := w'.atStep setting grouped options (pre ++ step' :: mid)
    Visit setting tree (.start root setup []) sibling v ∧
      Visit setting tree' (.start root setup []) sibling v' ∧
        (sibling.SameIn setting v v' ↔
          grouped = true ∨ Params.Same (before.extend (step.exposed ++ exposedOf mid))
            (before.extend (step'.exposed ++ exposedOf mid))) := by
  intro setting before v v'
  -- nothing is asked of style values here
  have hbase : setting.Provides fun _ => True := ⟨trivial, fun _ _ _ _ _ _ _ => trivial⟩
  have hsteps : ∀ rest, (pre ++ step :: rest).map Animation.withoutParams =
      (pre ++ step' :: rest).map Animation.withoutParams := fun rest => by
    simp only [List.map_append, List.map_cons, hstep]
  have hnode : (Animation.ofSteps grouped (pre ++ step :: (mid ++ sibling :: post))
      options).withoutParams = (Animation.ofSteps grouped (pre ++ step' :: (mid ++ sibling :: post))
        options).withoutParams := by
    cases grouped <;>
      simp only [Animation.ofSteps, Animation.withoutParams, withoutParamsOf_eq_map, hsteps,
        Bool.false_eq_true, ↓reduceIte]
  have hstart : (Walk.start root setup []).Depicts (fun _ => True) 0 _ :=
    Walk.depicts_start trivial root setup []
  obtain ⟨hw, hw', K, K', since, since', hK, hK', hagrees, hcalm⟩ :=
    h.agrees hbase hnode hstart hstart (.refl _) rfl
  -- the later step is one of the same node, with more steps before it
  have hsplit : ∀ step, pre ++ step :: (mid ++ sibling :: post) =
      (pre ++ step :: mid) ++ sibling :: post := fun step => by
    rw [List.append_assoc, List.cons_append]
  rw [hsplit] at hw hw'
  refine ⟨hw.trans (visit_atStep setting grouped options _ post sibling w), ?_, ?_⟩
  · exact hw'.trans (visit_atStep setting grouped options _ post sibling w')
  · have hv := Counterparts.depicts_atStep hbase hK grouped options (pre ++ step :: mid)
    have hv' := Counterparts.depicts_atStep hbase hK' grouped options (pre ++ step' :: mid)
    have hbefore : before = (K.atStep setting grouped options pre).params :=
      (Counterparts.depicts_atStep hbase hK grouped options pre).params
    obtain ⟨halike, hnested⟩ := hagrees.alike.atStep setting hagrees.nested hcalm
      grouped options (hsteps mid)
    rw [Animation.sameIn_iff hbase sibling hv hv' halike hnested
      (Sketch.calm_atStep setting grouped options _ hcalm), hbefore]
    exact Sketch.same_params_atStep_iff setting hagrees grouped options pre mid step step'

end Siblings

/-- An animated step in a reference that declares parameters. -/
def Animation.declaring (params : Params ℚ) : Animation ℚ :=
  .reference (.animate (.ofDuration 100) (.style (.ofEntries [("a", .number 1)])))
    (some { Options.none with params := some params })

/-- An animated step with a parameter in it. -/
def Animation.asking : Animation ℚ :=
  .animate (.ofDuration 100) (.style (.ofEntries [("b", .text "\x7b\x7bx\x7d\x7d")]))

open Animation (declaring asking)

/-- A parameter that is in force already is not replaced. -/
theorem siblings_iff_kept :
    let setting := (Setup.standard : Setup ℚ).setting (fun _ _ _ => []) ∅
    let first := declaring (.ofList [("x", .text "1")])
    let step := declaring (.ofList [("x", .text "2")])
    let step' := declaring (.ofList [("x", .text "3")])
    let w := Walk.start ⟨1⟩ .standard []
    step.withoutParams = step'.withoutParams ∧
      asking.SameIn setting (w.atStep setting false none [first, step])
        (w.atStep setting false none [first, step']) := by
  intro setting first step step' w
  have hstep : step.withoutParams = step'.withoutParams := rfl
  have hsame : (w.atStep setting false none [first]).scope.options.params.extend
        (step.exposed ++ exposedOf []) =
      (w.atStep setting false none [first]).scope.options.params.extend
        (step'.exposed ++ exposedOf []) := by
    decide +kernel
  let tree : Animation ℚ := .ofSteps false ([first] ++ step :: ([] ++ asking :: [])) none
  let tree' : Animation ℚ := .ofSteps false ([first] ++ step' :: ([] ++ asking :: [])) none
  have hcounterparts : Counterparts (Setup.standard.setting (fun _ _ _ => []) ∅) tree tree' w w
      tree tree' w w := .here tree tree' w w
  have hsiblings := siblings_iff hcounterparts hstep
  exact ⟨hstep, hsiblings.2.2.2 (.inr fun name => by rw [hsame])⟩

/-- Parameters declared in a step can reach a later one. -/
theorem not_sameIn_declaring :
    let setting := (Setup.standard : Setup ℚ).setting (fun _ _ _ => []) ∅
    let step := declaring (.ofList [("x", .text "1")])
    let step' := declaring ∅
    let w := Walk.start ⟨1⟩ .standard []
    let v := w.atStep setting false none [step]
    let v' := w.atStep setting false none [step']
    step.withoutParams = step'.withoutParams ∧
      Visit setting (.sequence [step, asking] none) w asking v ∧
      Visit setting (.sequence [step', asking] none) w asking v' ∧
      ¬asking.SameIn setting v v' ∧
      (asking.body setting v).diagnostics = [] ∧
      (asking.body setting v').diagnostics = [.missingParam "x"] := by
  intro setting step step' w v v'
  refine ⟨rfl, visit_atStep setting false none [step] [] asking w,
    visit_atStep setting false none [step'] [] asking w, fun h => ?_, ?_, ?_⟩
  · have hx := h.params "x"
    revert hx
    decide +kernel
  · decide +kernel
  · decide +kernel

end Choreography
