/-
Choreography/Proofs/Written.lean

Which written styles the instructions carry.

A style is applied as a step of a sequence, as a branch of a group, as the child of a query
or as the payload of an animated step (`Applied`).  In each case what it writes waits on the
timeline of the scope (`Walk.waits_style`).

After a step, a child or a payload the keyframe is finished before the scope is left, and
nothing in between loses what waits (`Applied.finished`).  A branch is left as it is: its
timeline, with a single keyframe that holds nothing, is not touched again (`Applied.abandoned`),
and is left out in the end.  So the styles of a branch are carried only if some other timeline
of the element happens to show the same properties (`carries_iff_of_applied`).
-/
import Choreography.Animation.Build
import Choreography.Proofs.Shown
import Choreography.Quantity.Exact

namespace Choreography

variable {τ : Type}

/-! ### Writing -/

namespace Scene

/-- The properties of a style are among those that its entries stand for. -/
theorem mem_keys_flatten {known : StyleMap τ} {entries : List (StyleEntry τ)}
    {values : StyleMap τ} {p : String} (hvalues : .values values ∈ entries)
    (hp : p ∈ values.keys) : p ∈ (flatten known entries).keys := by
  obtain ⟨entry, hentry, rfl⟩ := List.mem_map.1 hp
  exact OrderedMap.mem_keys_ofList.2
    (List.mem_map_of_mem (List.mem_flatMap.2 ⟨_, hvalues, hentry⟩))

variable [Quantity τ]

theorem pending_write (s : Scene τ) (property : String) (value : StyleValue τ) :
    (s.write property value).timeline.pending = s.timeline.pending.insert property value := by
  unfold write backfill
  split <;> rfl

theorem keyframes_write (s : Scene τ) (property : String) (value : StyleValue τ) :
    (s.write property value).timeline.keyframes = s.timeline.keyframes := by
  unfold write backfill
  split <;> rfl

/-- What waits after several writes. -/
theorem mem_pending_writeAll {p : String} (params : Params τ)
    (styles : List (String × StyleValue τ)) (s : Scene τ) :
    p ∈ (s.writeAll params styles).1.timeline.pending.keys ↔
      p ∈ s.timeline.pending.keys ∨ p ∈ styles.map Prod.fst := by
  induction styles generalizing s with
  | nil => simp [writeAll]
  | cons entry rest ih =>
    show p ∈ (Scene.writeAll params rest (s.write entry.1 _)).1.timeline.pending.keys ↔ _
    rw [ih, pending_write, OrderedMap.mem_keys_insert, List.map_cons, List.mem_cons]
    tauto

theorem keyframes_writeAll (params : Params τ) (styles : List (String × StyleValue τ))
    (s : Scene τ) : (s.writeAll params styles).1.timeline.keyframes = s.timeline.keyframes := by
  induction styles generalizing s with
  | nil => rfl
  | cons entry rest ih => exact (ih (s.write entry.1 _)).trans (keyframes_write s _ _)

/-- What a style sets waits. -/
theorem mem_pending_setStyles {s : Scene τ} {entries : List (StyleEntry τ)}
    {values : StyleMap τ} {p : String} (hvalues : .values values ∈ entries)
    (hp : p ∈ values.keys) (easing : Option String) (params : Params τ) :
    p ∈ (s.setStyles entries easing params).1.timeline.pending.keys :=
  (mem_pending_writeAll params _ _).2 (.inr (mem_keys_flatten hvalues hp))

/-- On a timeline that has not moved yet a style changes no keyframe. -/
theorem keyframes_setStyles {s : Scene τ} (hprevious : s.timeline.previous = none)
    (entries : List (StyleEntry τ)) (easing : Option String) (params : Params τ) :
    (s.setStyles entries easing params).1.timeline.keyframes = s.timeline.keyframes := by
  refine (keyframes_writeAll params _ (s.onTimeline (Timeline.easePrevious easing))).trans ?_
  show (s.timeline.easePrevious easing).keyframes = _
  unfold Timeline.easePrevious
  rw [hprevious]
  cases easing <;> rfl

end Scene

namespace Walk

variable [Quantity τ]

/-- The walk in which a style is written: outside an animated step it waits for the next frame
if the keyframe holds styles already. -/
def atStyle (w : Walk τ) : Walk τ :=
  if w.scope.timings.isNone && w.timeline.hasCurrentStyles then
    w.edit (Scene.onTimeline Timeline.forwardFrame)
  else w

theorem scope_atStyle (w : Walk τ) : w.atStyle.scope = w.scope := by
  unfold atStyle
  split <;> rfl

theorem scope_style (step : StyleStep τ) (w : Walk τ) :
    (w.style step).scope.timeline = w.scope.timeline := by
  rw [← scope_atStyle w]
  simp only [style]
  split <;> rfl

/-- The timeline of the scope after a style that is not empty. -/
theorem timeline_style {step : StyleStep τ} (hne : step.entries ≠ []) {w : Walk τ}
    (hid : w.scope.timeline < w.score.timelines.length) :
    ∃ easing, (w.style step).timeline = ((w.atStyle.score.scene w.scope.timeline).setStyles
      step.entries easing w.scope.options.params).1.timeline := by
  have hid' : w.scope.timeline < w.atStyle.score.timelines.length := by
    unfold atStyle
    split
    · rw [edit, editAt, Score.length_timelines_edit]
      exact hid
    · exact hid
  -- the easing of the step around comes first
  refine ⟨(w.scope.timings.bind Timings.easing).or step.easing, ?_⟩
  rw [← scope_atStyle w] at hid' ⊢
  simp only [style, List.isEmpty_iff, if_neg hne]
  exact Score.timeline_edit_self (fun s => (s.setStyles step.entries _ _).1) hid'

/-- What a style writes waits on the timeline of the scope. -/
theorem waits_style {step : StyleStep τ} {values : StyleMap τ} {p : String}
    (hvalues : .values values ∈ step.entries) (hp : p ∈ values.keys) {w : Walk τ}
    (hid : w.scope.timeline < w.score.timelines.length) :
    p ∈ (w.style step).timeline.pending.keys := by
  obtain ⟨easing, htimeline⟩ := timeline_style (List.ne_nil_of_mem hvalues) hid
  rw [htimeline]
  exact Scene.mem_pending_setStyles hvalues hp easing _

/-- On a new timeline a style alone shows nothing. -/
theorem Begins.containsAnimation_style {step : StyleStep τ} (hne : step.entries ≠ [])
    {w : Walk τ} {start : τ} (h : w.Begins start) :
    (w.style step).timeline.containsAnimation = false := by
  obtain ⟨lineage, element, own, hnew⟩ := h.new
  have hnew' : (w.score.scene w.scope.timeline).timeline = .begin lineage element start own := hnew
  -- there is nothing on the first keyframe yet, so the style does not wait for a frame
  have hstay : w.atStyle = w := by
    unfold atStyle
    simp [hnew, Timeline.begin, Timeline.hasCurrentStyles, Timeline.currentStyles,
      OrderedMap.isEmpty]
  obtain ⟨easing, htimeline⟩ := timeline_style hne h.timeline
  rw [hstay] at htimeline
  -- what is written only waits
  have hkeyframes : (w.style step).timeline.keyframes = [⟨0, none, ∅⟩] := by
    rw [htimeline, Scene.keyframes_setStyles (by rw [hnew']; rfl), hnew']
    rfl
  have hcurrent : (w.style step).timeline.current = 0 := by
    rw [htimeline]
    refine (congrArg Skeleton.current (Scene.skeleton_setStyles _ _ _ _)).trans ?_
    show (w.score.scene w.scope.timeline).timeline.current = 0
    rw [hnew']
    rfl
  simp [Timeline.containsAnimation, Timeline.hasCurrentStyles, Timeline.currentStyles,
    hkeyframes, hcurrent, OrderedMap.isEmpty]

end Walk

/-! ### Applied styles -/

/-- What a style is to the node it is written in. -/
inductive Role where
  | step
  | branch
  | child
  | payload
  deriving DecidableEq

variable [Quantity τ]

/-- The walk in which an animated step applies its style. -/
def Walk.atPayload (timing : Timing τ) (w : Walk τ) : Walk τ :=
  let (timings, w) := w.readTiming timing false
  (w.openAnimate timings).advance timings.duration

/-- Compiling a tree in a walk `w₀` applies a style in a walk `v`. -/
inductive Applied (setting : Setting τ) (tree : Animation τ) (w₀ : Walk τ) :
    Role → StyleStep τ → Walk τ → Prop
  | step {pre post : List (Animation τ)} {style : StyleStep τ} {options : Option (Options τ)}
      {w : Walk τ} :
      Visit setting tree w₀ (.sequence (pre ++ .style style :: post) options) w →
        Applied setting tree w₀ .step style
          ((w.openSequence options).follow (bodies setting pre))
  | branch {pre post : List (Animation τ)} {style : StyleStep τ} {options : Option (Options τ)}
      {w : Walk τ} :
      Visit setting tree w₀ (.group (pre ++ .style style :: post) options) w →
        Applied setting tree w₀ .branch style (w.atBranch options (bodies setting pre))
  | child {q : Selection} {style : StyleStep τ} {options : Option (Options τ)} {w : Walk τ}
      {pre post : List ElementId} {element : ElementId}
      (selected : setting.select w.scope.element q = pre ++ element :: post) :
      Visit setting tree w₀ (.query q (.style style) options) w →
        Applied setting tree w₀ .child style
          ((w.beforeMatch setting ((Animation.style style).body setting) q options
            pre).openMatch options element pre.length)
  | payload {timing : Timing τ} {style : StyleStep τ} {w : Walk τ} :
      Visit setting tree w₀ (.animate timing (.style style)) w →
        Applied setting tree w₀ .payload style (w.atPayload timing)

namespace Applied

variable {setting : Setting τ} {tree : Animation τ} {w₀ v : Walk τ} {role : Role}
  {style : StyleStep τ}

theorem effect_atPayload (timing : Timing τ) (w : Walk τ) :
    Walk.Effect w (w.atPayload timing) :=
  ((Walk.Effect.compositional.readTiming timing false w).trans
    (Walk.Effect.compositional.openAnimate _ _)).trans (Walk.Effect.compositional.advance _ _)

theorem precedes (h : Applied setting tree w₀ role style v) : w₀.Precedes v := by
  cases h with
  | step h => exact (h.trans (.step (.here _ _))).precedes
  | branch h => exact (h.trans (.branch (.here _ _))).precedes
  | child selected h => exact (h.trans (.match selected (.here _ _))).precedes
  | payload h => exact h.precedes.trans (effect_atPayload _ _).precedes

theorem valid (h : Applied setting tree w₀ role style v) (hw : w₀.Valid) : v.Valid := by
  cases h with
  | step h => exact (h.trans (.step (.here _ _))).valid hw
  | branch h => exact (h.trans (.branch (.here _ _))).valid hw
  | child selected h => exact (h.trans (.match selected (.here _ _))).valid hw
  | payload h => exact (effect_atPayload _ _).valid (h.valid hw)

/-- Except in a branch, the keyframe is finished at some point after the style. -/
theorem finished (h : Applied setting tree w₀ role style v) (hrole : role ≠ .branch) :
    ∃ u, Walk.Delivers (v.style style) u ∧
      (u.edit Scene.flush).Precedes (tree.body setting w₀) := by
  cases h with
  | branch h => exact absurd rfl hrole
  | @step pre post style options w h =>
    -- when all steps are done
    let all := bodies setting (pre ++ .style style :: post)
    let after := ((w.openSequence options).follow (bodies setting pre)).style style
    have hpost : Walk.Delivers after (after.follow (bodies setting post)) :=
      Walk.Delivers.compositional.foldl Walk.Delivers.compositional.of_mem_bodies _
    -- the steps before the style, the style, and the steps after it
    have hall : (w.openSequence options).follow all = after.follow (bodies setting post) := by
      show (w.openSequence options).follow (bodies setting (pre ++ .style style :: post)) = _
      rw [Walk.bodies_append, Walk.follow_append]
      rfl
    have hsteps : Walk.Effect ((after.follow (bodies setting post)).edit Scene.flush)
        ((w.openSequence options).steps w.scope.forks all) :=
      hall ▸ Walk.effect_steps (by simp [all, bodies_eq_map]) _ _
    have hsequence := (Walk.resumes_precedes w w).sequence (.refl w) all options
    exact ⟨_, hpost, (hsteps.precedes.trans hsequence).trans h.follows⟩
  | @child q style options w pre post element selected h =>
    -- when the match is left
    obtain ⟨furthest, hrest⟩ := Walk.effect_of_matched selected (.style style) options
    exact ⟨_, .refl _, (Walk.Precedes.leave _ _).trans (hrest.precedes.trans h.follows)⟩
  | @payload timing style w h =>
    -- at once
    have hanimate : Walk.Precedes (((w.atPayload timing).style style).edit Scene.flush)
        (w.animate timing (.style style)) := .of_eq rfl rfl
    exact ⟨_, .refl _, hanimate.trans h.follows⟩

end Applied

/-! ### What is left alone -/

/-- Of the timelines from `n` on, those that the scope does not stand on are left alone, and
it does not come to stand on them. -/
structure Walk.Untouched (n : Nat) (w w' : Walk τ) : Prop where
  length_le : w.score.timelines.length ≤ w'.score.timelines.length
  timeline_eq : ∀ id, n ≤ id → id < w.score.timelines.length → id ≠ w.scope.timeline →
    id ≠ w'.scope.timeline ∧ w'.score.timeline id = w.score.timeline id

namespace Walk.Untouched

/-- What is left alone twice is left alone. -/
theorem trans {n : Nat} {w w₁ w₂ : Walk τ} (h : Untouched n w w₁) (h' : Untouched n w₁ w₂) :
    Untouched n w w₂ where
  length_le := h.length_le.trans h'.length_le
  timeline_eq id hn hid hne := by
    obtain ⟨hne₁, heq⟩ := h.timeline_eq id hn hid hne
    obtain ⟨hne₂, heq'⟩ := h'.timeline_eq id hn (Nat.lt_of_lt_of_le hid h.length_le) hne₁
    exact ⟨hne₂, heq'.trans heq⟩

/-- An effect is aimed at the timeline of the scope, and at later ones. -/
theorem of_effect {n : Nat} {w w' : Walk τ} (h : Effect w w') : Untouched n w w' where
  length_le := h.length_le
  timeline_eq id _ hid hne := by
    refine ⟨?_, h.timeline_eq hid hne⟩
    -- the scope stays on its timeline, or goes on in one that was entered since
    rcases h.timeline with hline | hge
    · rwa [hline]
    · exact Nat.ne_of_lt (Nat.lt_of_lt_of_le hid hge)

/-- A scope from before `n` stands on none of them. -/
theorem leave {n : Nat} {scope : Scope τ} (hscope : scope.timeline < n) (inner : Walk τ) :
    Untouched n inner (leave scope inner) where
  length_le := Nat.le_refl _
  timeline_eq _ hn _ _ := ⟨Nat.ne_of_gt (Nat.lt_of_lt_of_le hscope hn), rfl⟩

/-- After a visited node nobody comes back to the timelines that it has entered and left. -/
theorem resumes {w v : Walk τ} (hw : w.Valid) :
    Resumes w v (Untouched v.score.timelines.length) where
  trans := trans
  effect := of_effect
  -- the scope that is returned to is older than the node
  leave inner hu hv := .leave (Nat.lt_of_lt_of_le (hv hw).timeline hu.length_le) inner

end Walk.Untouched

/-- Nobody comes back to the timelines that a node has left behind. -/
theorem Visit.timeline_eq {setting : Setting τ} {tree node : Animation τ} {w v : Walk τ}
    (h : Visit setting tree w node v) (hw : w.Valid) {id : TimelineId}
    (hge : v.score.timelines.length ≤ id) (hlt : id < (node.body setting v).scope.timeline) :
    (tree.body setting w).score.timeline id = (node.body setting v).score.timeline id := by
  have hvalid : (node.body setting v).Valid := (node.effect setting v).valid (h.valid hw)
  have hrest := h.resumes (Walk.Untouched.resumes hw)
  exact (hrest.timeline_eq id hge (hlt.trans hvalid.timeline) (Nat.ne_of_lt hlt)).2

/-- The timeline of a branch that is a style stays as the style has left it. -/
theorem Applied.abandoned {setting : Setting τ} {tree : Animation τ} {w₀ v : Walk τ}
    {style : StyleStep τ} (h : Applied setting tree w₀ .branch style v) (hw : w₀.Valid) :
    (tree.body setting w₀).score.timeline v.scope.timeline = (v.style style).timeline := by
  cases h with
  | @branch pre post style options w h =>
    let u := (Walk.branches options (bodies setting pre) w.currentTime w).1
    let v := u.openBranch options
    let out := w.group (bodies setting (pre ++ .style style :: post)) options
    have hu : Walk.Effect w u :=
      Walk.Effect.compositional.branches Walk.effect_of_mem_bodies options _ w
    have huv : u.Valid := hu.valid (h.valid hw)
    -- the branch has the timeline that was entered for it, and does not go on in another one
    have hopen : v.scope.timeline = u.score.timelines.length := by
      show ((u.enter options u.scope.element).delay (Walk.delayOf options)).scope.timeline = _
      rw [Walk.scope_delay, Walk.enter_timeline]
    have hline : (v.style style).scope.timeline = v.scope.timeline := Walk.scope_style style v
    have hid : v.scope.timeline < (v.style style).score.timelines.length :=
      hline ▸ ((Walk.Effect.compositional.style style v).valid
        (Walk.valid_atBranch options pre (h.valid hw))).timeline
    -- then the scope of the group is back on its own one
    have hne : v.scope.timeline ≠ u.scope.timeline := by
      rw [hopen]
      exact Nat.ne_of_gt huv.timeline
    obtain ⟨furthest, hrest⟩ := Walk.effect_of_branch setting pre post (.style style) options w
    have hgroup : Walk.Effect (Walk.leave u.scope (v.style style)) out := hrest
    have hout := (Walk.Untouched.of_effect (n := w.score.timelines.length) hgroup).timeline_eq
      v.scope.timeline (hopen ▸ hu.length_le) hid hne
    -- nor does the rest of the run come back to it
    have hend := (h.resumes (Walk.Untouched.resumes hw)).timeline_eq v.scope.timeline
      (hopen ▸ hu.length_le) (Nat.lt_of_lt_of_le hid hgroup.length_le) hout.1
    refine (hend.2.trans hout.2).trans ?_
    show (v.style style).score.timeline v.scope.timeline = _
    rw [← hline]
    rfl

/-! ### Instructions -/

section Compile

variable {host : Host} {root : ElementId} {tree : Animation τ} {setup : Setup τ}
  {delegated : InstructionMap τ} {v : Walk τ} {role : Role} {style : StyleStep τ}
  {values : StyleMap τ} {p : String}

/-- Except in a branch, what a style writes is carried. -/
theorem Applied.carries
    (h : Applied (setup.setting host delegated) tree (.start root setup []) role style v)
    (hrole : role ≠ .branch) (hvalues : .values values ∈ style.entries) (hp : p ∈ values.keys) :
    (compile host root tree setup delegated).Carries v.scope.element p := by
  have hv : v.Valid := h.valid (Walk.valid_start root setup [])
  have hstyle := Walk.Effect.compositional.style style v
  have hafter : (v.style style).Valid := hstyle.valid hv
  have hsound : (v.style style).score.Sound :=
    Walk.sound_of_start (h.precedes.trans hstyle.precedes)
  obtain ⟨u, hdelivers, hend⟩ := h.finished hrole
  -- what waits after the style is on a keyframe once this is finished
  have hshows := hdelivers.shows_flush hafter.timeline (hsound.grounded _)
    (Walk.waits_style hvalues hp hv.timeline)
  have hu := (hdelivers.effect.trans (.change u .flush)).precedes
  have helement : ((u.edit Scene.flush).score.timeline (v.style style).scope.timeline).element
      = v.scope.element :=
    (congrArg (fun o => o.2.1) (hu.owner_eq hafter.timeline)).trans
      (hafter.element.trans hstyle.element)
  rw [← helement]
  exact carries_of_shows hend (Nat.lt_of_lt_of_le hafter.timeline hu.length_le) hshows

/-- The timeline of a branch that is a style has nothing to show. -/
theorem Applied.not_animated (hzero : ((0 : τ) == 0) = true)
    (h : Applied (setup.setting host delegated) tree (.start root setup []) .branch style v)
    (hne : style.entries ≠ []) :
    .timeline v.scope.timeline ∉
      (Walk.run (setup.setting host delegated) root tree setup []).score.animated := by
  intro hmem
  have hshown := (List.mem_filter.1 hmem).2
  have hbegins : ∃ start, v.Begins start := by
    cases h with
    | branch h => exact ⟨_, (Walk.begins_enter _ _ _).delay hzero _⟩
  obtain ⟨start, hbegins⟩ := hbegins
  -- the style is all that ever happens to the timeline of the branch
  have hempty := hbegins.containsAnimation_style hne
  rw [← h.abandoned (Walk.valid_start root setup [])] at hempty
  exact Bool.false_ne_true (hempty.symm.trans hshown)

/-- **Which written styles are carried**: all that are written in a step, for a match or in an
animated step; and those of a branch that is a style if and only if an entry other than the
timeline of the branch carries them. -/
theorem carries_iff_of_applied (hzero : ((0 : τ) == 0) = true)
    (h : Applied (setup.setting host delegated) tree (.start root setup []) role style v)
    (hvalues : .values values ∈ style.entries) (hp : p ∈ values.keys) :
    let run := Walk.run (setup.setting host delegated) root tree setup []
    (compile host root tree setup delegated).Carries v.scope.element p ↔
      role ≠ .branch ∨ ∃ e ∈ run.score.animated, e ≠ .timeline v.scope.timeline ∧
        ((run.finish root setup).score.instruction e).Carries v.scope.element p := by
  intro run
  constructor
  · intro hcarries
    by_cases hrole : role = .branch
    · subst hrole
      obtain ⟨e, he, hi⟩ := carries_iff.1 hcarries
      refine .inr ⟨e, he, ?_, hi⟩
      rintro rfl
      exact h.not_animated hzero (List.ne_nil_of_mem hvalues) he
    · exact .inl hrole
  · rintro (hrole | ⟨e, he, -, hi⟩)
    · exact h.carries hrole hvalues hp
    · exact carries_iff.2 ⟨e, he, hi⟩

end Compile

/-- The style of the branches below. -/
def branchStyle : StyleStep ℚ := .ofEntries [("a", .number 1)]

/-- A branch that is a style, beside one that animates the same property. -/
def twinBranches : Animation ℚ :=
  .group [.style branchStyle,
    .animate (.ofDuration 100) (.style (.ofEntries [("a", .number 2)]))] none

/-- The timeline of the other branch carries the property. -/
theorem carries_iff_of_applied_twins :
    let setting := (Setup.standard : Setup ℚ).setting (fun _ _ _ => []) ∅
    let w := Walk.start ⟨1⟩ .standard []
    let v := w.atBranch none (bodies setting [])
    let values : StyleMap ℚ := .ofList [("a", .ofScalar (.number 1))]
    ((0 : ℚ) == 0) = true ∧ Applied setting twinBranches w .branch branchStyle v ∧
      .values values ∈ branchStyle.entries ∧ "a" ∈ values.keys ∧
        (compile (fun _ _ _ => []) ⟨1⟩ twinBranches .standard ∅).Carries v.scope.element "a" := by
  intro setting w v values
  have hzero : ((0 : ℚ) == 0) = true := by decide
  have hvisit : Visit setting (.group ([] ++ .style branchStyle ::
      [.animate (.ofDuration 100) (.style (.ofEntries [("a", .number 2)]))]) none) w
        twinBranches w := .here _ _
  have happlied : Applied setting twinBranches w .branch branchStyle v := .branch hvisit
  have hvalues : .values values ∈ branchStyle.entries := by decide +kernel
  have hp : "a" ∈ values.keys := by decide +kernel
  refine ⟨hzero, happlied, hvalues, hp, (carries_iff_of_applied hzero happlied hvalues hp).2
    (.inr ?_)⟩
  decide +kernel

/-- A branch that is a style, with nothing beside it. -/
def loneBranch : Animation ℚ := .group [.style branchStyle] none

/-- No instruction carries its property. -/
theorem not_carried_loneBranch :
    let setting := (Setup.standard : Setup ℚ).setting (fun _ _ _ => []) ∅
    let w := Walk.start ⟨1⟩ .standard []
    let v := w.atBranch none (bodies setting [])
    let values : StyleMap ℚ := .ofList [("a", .ofScalar (.number 1))]
    Applied setting loneBranch w .branch branchStyle v ∧ .values values ∈ branchStyle.entries ∧
      "a" ∈ values.keys ∧
        ¬(compile (fun _ _ _ => []) ⟨1⟩ loneBranch .standard ∅).Carries v.scope.element "a" := by
  intro setting w v values
  have hvisit : Visit setting (.group ([] ++ .style branchStyle :: []) none) w loneBranch w :=
    .here _ _
  refine ⟨.branch hvisit, ?_, ?_, ?_⟩
  · decide +kernel
  · decide +kernel
  · decide +kernel

end Choreography
