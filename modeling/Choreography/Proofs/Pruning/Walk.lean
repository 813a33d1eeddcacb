/-
Choreography/Proofs/Pruning/Walk.lean

Walks that differ in timelines on which nothing happens.

Walks are paired (`Walk.Paired`) if their scores are, if their scopes stand on timelines that
belong together, and if everything else in the scopes agrees, except for how many scopes have
been entered from them.  The number matters at the end of a sequence, and there only in
whether it has changed.

`InStep w u w' u'` says that what leads from `w` to `w'` and from `u` to `u'` keeps walks
paired as long as nothing is reported, that it does not turn back the clock, and that either
both scopes have been entered from or neither has.  What keeps walks in step composes, also
around scopes that are entered and left again (`InStep.leave`).
-/
import Choreography.Proofs.Progress
import Choreography.Proofs.Pruning.Score

namespace Choreography

section Exactly

variable {τ : Type} [Quantity τ]

/-! ### Scopes side by side -/

/-- The scope on another timeline, from which as many scopes as given have been entered. -/
def Scope.onto (a : Scope τ) (id : TimelineId) (forks : Nat) : Scope τ :=
  { a with timeline := id, forks := forks }

/-- Scopes on timelines that belong together, which otherwise differ at most in how many scopes
have been entered from them. -/
structure Scope.Paired (ρ : Pairing) (a b : Scope τ) : Prop where
  pair : ρ.pair a.timeline b.timeline
  rest : b = a.onto b.timeline b.forks

section Scope

variable {ρ : Pairing} {a b : Scope τ}

omit [Quantity τ]

theorem Scope.Paired.element_eq (h : a.Paired ρ b) : b.element = a.element := by
  rw [h.rest, onto]

theorem Scope.Paired.outer_eq (h : a.Paired ρ b) : b.outer = a.outer := by
  rw [h.rest, onto]

theorem Scope.Paired.previous_eq (h : a.Paired ρ b) : b.previous = a.previous := by
  rw [h.rest, onto]

theorem Scope.Paired.timings_eq (h : a.Paired ρ b) : b.timings = a.timings := by
  rw [h.rest, onto]

theorem Scope.Paired.options_eq (h : a.Paired ρ b) : b.options = a.options := by
  rw [h.rest, onto]

theorem Scope.Paired.index_eq (h : a.Paired ρ b) : b.index = a.index := by
  rw [h.rest, onto]

theorem Scope.Paired.total_eq (h : a.Paired ρ b) : b.total = a.total := by
  rw [h.rest, onto]

theorem Scope.Paired.staggerTime_eq (h : a.Paired ρ b) : b.staggerTime = a.staggerTime := by
  rw [h.rest, onto]

/-- What has no regard to the timeline and to the number changes neither. -/
theorem Scope.eq_of_onto {f : Scope τ → Scope τ}
    (hf : ∀ a id forks, f (a.onto id forks) = (f a).onto id forks) (a : Scope τ) :
    (f a).timeline = a.timeline ∧ (f a).forks = a.forks := by
  have hsame : f a = (f a).onto a.timeline a.forks := hf a a.timeline a.forks
  rw [hsame]
  exact ⟨rfl, rfl⟩

/-- What is done to both scopes alike. -/
theorem Scope.Paired.map (h : a.Paired ρ b) {f : Scope τ → Scope τ}
    (hf : ∀ a id forks, f (a.onto id forks) = (f a).onto id forks) : (f a).Paired ρ (f b) := by
  refine ⟨?_, ?_⟩
  · rw [(eq_of_onto hf a).1, (eq_of_onto hf b).1]
    exact h.pair
  · rw [(eq_of_onto hf b).1, (eq_of_onto hf b).2, ← hf, ← h.rest]

end Scope

/-- Timelines that are gathered: what is left over is gathered by the first run alone. -/
inductive Pairing.Gathers (ρ : Pairing) : List TimelineId → List TimelineId → Prop
  | nil : Gathers ρ [] []
  | both {is js : List TimelineId} {i j : TimelineId} :
      ρ.pair i j → Gathers ρ is js → Gathers ρ (i :: is) (j :: js)
  | spare {is js : List TimelineId} {i : TimelineId} :
      ρ.spare i → Gathers ρ is js → Gathers ρ (i :: is) js

namespace Walk

/-! ### Walks side by side -/

/-- The scope stands on a timeline of its element, and there is room for what is known. -/
structure Sound (w : Walk τ) : Prop where
  valid : w.Valid
  housed : w.score.Housed

theorem Effect.sound {w w' : Walk τ} (h : Effect w w') (hw : w.Sound) : w'.Sound :=
  ⟨h.valid hw.valid, h.precedes.housed hw.housed⟩

/-- Walks that are the same but for timelines on which nothing happens. -/
structure Paired (ρ : Pairing) (w u : Walk τ) : Prop where
  score : w.score.Paired ρ u.score
  scope : w.scope.Paired ρ u.scope
  diagnostics : u.diagnostics = w.diagnostics
  sound : w.Sound
  sound' : u.Sound

section Paired

variable {ρ : Pairing} {w u : Walk τ}

theorem Paired.scene_eq (h : w.Paired ρ u) :
    u.score.scene u.scope.timeline = w.score.scene w.scope.timeline :=
  h.score.scene_eq h.scope.pair

theorem Paired.timeline_eq (h : w.Paired ρ u) : u.timeline = w.timeline :=
  congrArg Scene.timeline h.scene_eq

theorem Paired.currentTime_eq (h : w.Paired ρ u) : u.currentTime = w.currentTime :=
  congrArg Timeline.currentTime h.timeline_eq

/-- What happens in the score alone. -/
theorem Paired.withScore (h : w.Paired ρ u) {s s' : Score τ} (hs : s.Paired ρ s')
    (hw : Effect w { w with score := s }) (hu : Effect u { u with score := s' }) :
    ({ w with score := s } : Walk τ).Paired ρ { u with score := s' } :=
  ⟨hs, h.scope, h.diagnostics, hw.sound h.sound, hu.sound h.sound'⟩

/-- A change that does the same on equal timelines keeps walks paired. -/
theorem Paired.change (h : w.Paired ρ u) (c : Change τ) :
    (w.edit (·.change c)).Paired ρ (u.edit (·.change c)) :=
  h.withScore (h.score.edit h.scope.pair _) (.change w c) (.change u c)

theorem Paired.report (h : w.Paired ρ u) (reports : List Diagnostic) :
    (w.report reports).Paired ρ (u.report reports) :=
  ⟨h.score, h.scope, congrArg (· ++ reports) h.diagnostics, (Effect.report w reports).sound h.sound,
    (Effect.report u reports).sound h.sound'⟩

/-- What happens in the scope alone. -/
theorem Paired.rescope (h : w.Paired ρ u) {a b : Scope τ} (hab : a.Paired ρ b)
    (hw : Effect w { w with scope := a }) (hu : Effect u { u with scope := b }) :
    ({ w with scope := a } : Walk τ).Paired ρ { u with scope := b } :=
  ⟨h.score, hab, h.diagnostics, hw.sound h.sound, hu.sound h.sound'⟩

/-- The same is written on timelines that belong together, whoever stands on them. -/
theorem Paired.written (h : w.Paired ρ u) {i j : TimelineId} (hp : ρ.pair i j)
    (entries : List (StyleEntry τ)) (easing : Option String) :
    (w.writeAt i entries easing).score.Paired ρ (u.writeAt j entries easing).score ∧
      (u.writeAt j entries easing).diagnostics = (w.writeAt i entries easing).diagnostics := by
  have hparams : u.scope.options.params = w.scope.options.params :=
    congrArg Overrides.params h.scope.options_eq
  constructor
  · show (w.score.edit i fun s => (s.setStyles entries easing w.scope.options.params).1).Paired ρ
      (u.score.edit j fun s => (s.setStyles entries easing u.scope.options.params).1)
    rw [hparams]
    exact h.score.edit hp _
  · show u.diagnostics ++ ((u.score.scene j).setStyles entries easing u.scope.options.params).2 = _
    rw [hparams, h.score.scene_eq hp, h.diagnostics]
    rfl

/-- The same styles are written on the timelines of both scopes. -/
theorem Paired.writeAt (h : w.Paired ρ u) (entries : List (StyleEntry τ))
    (easing : Option String) :
    (w.writeAt w.scope.timeline entries easing).Paired ρ
      (u.writeAt u.scope.timeline entries easing) := by
  obtain ⟨hscore, hreports⟩ := h.written h.scope.pair entries easing
  exact ⟨hscore, h.scope, hreports, (Effect.compositional.writeAt entries easing w).sound h.sound,
    (Effect.compositional.writeAt entries easing u).sound h.sound'⟩

theorem Paired.place (h : w.Paired ρ u) (p : Placement τ) :
    ({ w with score := w.score.place p } : Walk τ).Paired ρ
      { u with score := u.score.place p } :=
  h.withScore (h.score.place p) (Effect.compositional.place p w) (Effect.compositional.place p u)

theorem Paired.merge (h : w.Paired ρ u) {i j : TimelineId} (hp : ρ.pair i j) :
    ({ w with score := w.score.merge w.scope.timeline i } : Walk τ).Paired ρ
      { u with score := u.score.merge u.scope.timeline j } :=
  h.withScore (h.score.merge h.scope.pair hp) (effect_merge i w) (effect_merge j u)

/-- What is left over adds nothing to what is gathered. -/
theorem Paired.gather (h : w.Paired ρ u) {is js : List TimelineId} (hids : ρ.Gathers is js) :
    (w.gather is).Paired ρ (u.gather js) := by
  -- on how the gathered timelines belong together; a timeline of the first run alone is untouched,
  -- and so its merge does nothing
  induction hids generalizing w u with
  | nil => exact h
  | both hp _ ih => exact ih (h.merge hp)
  | @spare is js i hi _ ih =>
    have hsame : w.score.merge w.scope.timeline i = w.score :=
      Score.merge_of_untouched h.sound.housed h.sound.valid.timeline (h.score.spare hi).2.2
    have hfirst : w.gather (i :: is) = w.gather is := by
      show ({ w with score := w.score.merge w.scope.timeline i } : Walk τ).gather is = _
      rw [hsame]
    rw [hfirst]
    exact ih h

/-- Both walks go on in a new timeline. -/
theorem Paired.renew (h : w.Paired ρ u) (at? : Option τ) :
    (w.renew at?).Paired (ρ.join w.score.timelines.length u.score.timelines.length)
      (u.renew at?) := by
  have hscore := h.score.fork h.scope.pair w.scope.element at?
  refine ⟨?_, ⟨?_, ?_⟩, h.diagnostics, (effect_renew at? w).sound h.sound,
    (effect_renew at? u).sound h.sound'⟩
  · show (w.score.fork _ _ _).2.Paired _ (u.score.fork _ u.scope.element _).2
    rw [h.scope.element_eq]
    exact hscore
  · -- the new timelines are the pair that is joined
    rw [renew_timeline, renew_timeline]
    exact .inr ⟨rfl, rfl⟩
  · have hscope : (u.renew at?).scope = { u.scope with
        previous := none, timeline := (u.renew at?).scope.timeline } := rfl
    rw [hscope, h.scope.rest]
    rfl

/-! ### Scopes that are entered and left -/

/-- What a scope is given when it is entered. -/
theorem scope_enter (options : Option (Options τ)) (element : ElementId) (w : Walk τ) :
    (w.enter options element).scope =
      { Scope.begin element (w.enter options element).scope.timeline with
        previous := w.scope.previous
        timings := w.scope.timings
        options := (({ (Overrides.none : Overrides τ) with
          params := w.scope.options.params }).update false options).1
        index := w.scope.index
        total := w.scope.total
        outer := some ⟨w.scope.staggerTime,
          ((w.enter options element).score.timeline w.scope.timeline).start⟩ } := rfl

/-- Both walks enter a scope, on timelines that belong together. -/
theorem Paired.enter (h : w.Paired ρ u) (options : Option (Options τ)) (element : ElementId) :
    (w.enter options element).Paired (ρ.join w.score.timelines.length u.score.timelines.length)
      (u.enter options element) := by
  have hscore := h.score.fork h.scope.pair element none
  have hsound : ∀ v : Walk τ, v.Sound → (v.enter options element).Sound := fun v hv =>
    ⟨hv.valid.enter options element, (Precedes.enter v options element).housed hv.housed⟩
  refine ⟨?_, ⟨?_, ?_⟩, ?_, hsound w h.sound, hsound u h.sound'⟩
  · rw [enter_score, enter_score]
    exact hscore
  · rw [enter_timeline, enter_timeline]
    exact .inr ⟨rfl, rfl⟩
  · -- the surroundings hold the start of the timeline that is left behind
    have hstart : ((u.enter options element).score.timeline u.scope.timeline).start =
        ((w.enter options element).score.timeline w.scope.timeline).start := by
      rw [enter_score, enter_score]
      exact congrArg Timeline.start (hscore.pair (.inl h.scope.pair)).2.2
    rw [scope_enter options element u, scope_enter options element w, hstart,
      h.scope.previous_eq, h.scope.timings_eq, h.scope.options_eq, h.scope.index_eq,
      h.scope.total_eq, h.scope.staggerTime_eq]
    rfl
  · show u.diagnostics ++ (({ (Overrides.none : Overrides τ) with
      params := u.scope.options.params }).update false options).2 = _
    rw [h.diagnostics, h.scope.options_eq]
    rfl

/-- What remains of walks whose scopes are left is the same but for timelines on which nothing
happens. -/
structure PairedOutside (ρ : Pairing) (w u : Walk τ) : Prop where
  score : w.score.Paired ρ u.score
  diagnostics : u.diagnostics = w.diagnostics
  /-- The time that a stagger has recorded. -/
  outer : u.scope.outer = w.scope.outer

/-- All of it is the same inside of the scopes, too. -/
theorem Paired.outside (h : w.Paired ρ u) : w.PairedOutside ρ u :=
  ⟨h.score, h.diagnostics, h.scope.outer_eq⟩

/-- Both walks go on in the scopes from which they came. -/
theorem Paired.leave {ρ' : Pairing} (h : w.Paired ρ u) (hρ : ρ'.Extends ρ) {inner inner' : Walk τ}
    (hinner : inner.PairedOutside ρ' inner') (hw : Effect w (leave w.scope inner))
    (hu : Effect u (leave u.scope inner')) :
    (Walk.leave w.scope inner).Paired ρ' (Walk.leave u.scope inner') := by
  refine ⟨hinner.score, ⟨hρ.pair h.scope.pair, ?_⟩, hinner.diagnostics, hw.sound h.sound,
    hu.sound h.sound'⟩
  show ({ u.scope with
    forks := u.scope.forks + 1
    staggerTime := inner'.scope.outer.elim u.scope.staggerTime Surroundings.staggerTime } :
      Scope τ) = _
  -- the time of a stagger is handed back, the same in both
  rw [hinner.outer, h.scope.rest]
  rfl

/-- Only the first walk goes on in a new timeline, and nothing waits where it was. -/
theorem Sound.renew_spare (hw : w.Sound) {s : Score τ} (h : w.score.Paired ρ s)
    (hpending : w.timeline.pending.isEmpty = true) (at? : Option τ) :
    (w.renew at?).score.Paired (ρ.withSpare w.score.timelines.length) s := by
  have hfork := h.fork_spare hw.housed hw.valid.timeline hpending at?
  rw [show (w.score.timeline w.scope.timeline).element = _ from hw.valid.element] at hfork
  exact hfork

end Paired

end Walk

end Exactly

/-- A delay moves the start of a timeline on which nothing has happened, and nothing else. -/
theorem Scene.delayNextStep_of_untouched {s : Scene ℚ} (h : s.timeline.Untouched) (time : ℚ) :
    (s.delayNextStep time).timeline.Untouched ∧ (s.delayNextStep time).shared = s.shared := by
  obtain ⟨lineage, element, start, own, hnew⟩ := h
  -- nothing has been written, so there is no keyframe to begin with
  refine ⟨⟨_, _, _, _, Scene.delayNextStep_of_begin (beq_self_eq_true (0 : ℚ)) hnew time⟩, ?_⟩
  simp [delayNextStep, hnew, Timeline.begin, OrderedMap.isEmpty, onTimeline]

namespace Walk

/-! ### Steps that only describe -/

section Describe

variable {ρ : Pairing} {w u : Walk ℚ}

/-- A branch in which nothing happens enters a timeline that is left over. -/
theorem Paired.describe (h : w.Paired ρ u) (hpending : w.timeline.pending.isEmpty = true)
    {options : Option (Options ℚ)}
    (hclean : (w.openBranch options).diagnostics = w.diagnostics) :
    (Walk.leave w.scope (w.openBranch options)).Paired (ρ.withSpare w.score.timelines.length)
      u := by
  let inner := w.enter options w.scope.element
  have heffect : Effect w (Walk.leave w.scope (w.openBranch options)) :=
    .leave rfl rfl rfl (Effect.compositional.delay (delayOf options) inner)
  have hinner : inner.score.Paired (ρ.withSpare w.score.timelines.length) u.score := by
    have hfork := h.sound.renew_spare h.score hpending none
    rwa [show (w.renew none).score = inner.score from (enter_score w options _).symm] at hfork
  have hroom : inner.score.Housed := (Precedes.enter w options _).housed h.sound.housed
  -- the scope of the branch stands on a timeline that only the first walk has
  have hspare : (ρ.withSpare w.score.timelines.length).spare inner.scope.timeline :=
    .inr (enter_timeline w options _)
  have hscope : (w.openBranch options).scope = inner.scope := scope_delay (delayOf options) inner
  refine ⟨?_, ⟨h.scope.pair, ?_⟩, ?_, heffect.sound h.sound, h.sound'⟩
  · show (inner.delay (delayOf options)).score.Paired _ _
    -- the delay of the branch is all that happens there, and it moves a start only
    unfold Walk.delay
    split
    · obtain ⟨huntouched, hshared⟩ := Scene.delayNextStep_of_untouched
        (s := inner.score.scene inner.scope.timeline) (hinner.spare hspare).2.2 (delayOf options)
      exact hinner.edit_spare hroom hspare huntouched hshared
    · exact hinner
  · -- no stagger has recorded a time
    have houter : (w.openBranch options).scope.outer.elim w.scope.staggerTime
        Surroundings.staggerTime = w.scope.staggerTime := by
      rw [hscope]
      rfl
    have hleave : (Walk.leave w.scope (w.openBranch options)).scope =
        w.scope.onto w.scope.timeline (w.scope.forks + 1) := by
      show ({ w.scope with
        forks := w.scope.forks + 1
        staggerTime := (w.openBranch options).scope.outer.elim w.scope.staggerTime
          Surroundings.staggerTime } : Scope ℚ) = _
      rw [houter]
      rfl
    rw [hleave]
    exact h.scope.rest
  · exact h.diagnostics.trans hclean.symm

end Describe

/-! ### In step -/

/-- Walks are still paired, the clock has not been turned back, and either both scopes have been
entered from or neither has. -/
structure Kept (ρ : Pairing) (w u w' u' : Walk ℚ) : Prop where
  paired : ∃ ρ' : Pairing, ρ'.Extends ρ ∧ w'.Paired ρ' u'
  time_le : w.currentTime ≤ w'.currentTime
  forks_le : w.scope.forks ≤ w'.scope.forks
  forks_le' : u.scope.forks ≤ u'.scope.forks
  forks_iff : w.scope.forks < w'.scope.forks ↔ u.scope.forks < u'.scope.forks

/-- What leads from one walk to the next keeps walks paired, as long as nothing is reported. -/
structure InStep (w u w' u' : Walk ℚ) : Prop where
  effect : Effect w w'
  effect' : Effect u u'
  keeps : ∀ {ρ : Pairing}, w.Paired ρ u → w'.diagnostics = [] → 0 ≤ w.currentTime →
    Kept ρ w u w' u'

section InStep

variable {ρ : Pairing} {w u w₁ u₁ w₂ u₂ : Walk ℚ}

/-- Pairings are extended one after another, and the numbers add up. -/
theorem Kept.trans {ρ₁ : Pairing} (hρ : ρ₁.Extends ρ) (h : Kept ρ w u w₁ u₁)
    (h' : Kept ρ₁ w₁ u₁ w₂ u₂) : Kept ρ w u w₂ u₂ where
  paired := by
    obtain ⟨ρ₂, hρ₂, hpaired⟩ := h'.paired
    exact ⟨ρ₂, hρ₂.trans hρ, hpaired⟩
  time_le := h.time_le.trans h'.time_le
  forks_le := h.forks_le.trans h'.forks_le
  forks_le' := h.forks_le'.trans h'.forks_le'
  forks_iff := by
    obtain ⟨-, -, hle, hle', hiff⟩ := h
    obtain ⟨-, -, hle₁, hle₁', hiff₁⟩ := h'
    -- neither number falls, so each has changed if it has in one of the two parts
    omega

/-- It is enough to count the scopes that have been entered. -/
theorem Kept.of_forks (n n' : Nat) (hpaired : ∃ ρ' : Pairing, ρ'.Extends ρ ∧ w₁.Paired ρ' u₁)
    (htime : w.currentTime ≤ w₁.currentTime) (hforks : w₁.scope.forks = w.scope.forks + n)
    (hforks' : u₁.scope.forks = u.scope.forks + n') (hiff : n = 0 ↔ n' = 0) :
    Kept ρ w u w₁ u₁ :=
  ⟨hpaired, htime, by omega, by omega, by omega⟩

theorem InStep.refl (w u : Walk ℚ) : InStep w u w u where
  effect := .refl w
  effect' := .refl u
  keeps h _ _ := .of_forks 0 0 ⟨_, .refl _, h⟩ le_rfl rfl rfl .rfl

theorem InStep.trans (h : InStep w u w₁ u₁) (h' : InStep w₁ u₁ w₂ u₂) : InStep w u w₂ u₂ where
  effect := h.effect.trans h'.effect
  effect' := h.effect'.trans h'.effect'
  keeps hw hclean hnow := by
    -- reports stay, so there is none halfway either
    have hfirst := h.keeps hw (h'.effect.precedes.clean hclean) hnow
    obtain ⟨ρ₁, hρ₁, hw₁⟩ := hfirst.paired
    exact hfirst.trans hρ₁ (h'.keeps hw₁ hclean (hnow.trans hfirst.time_le))

/-- One may use that the walks are paired and that nothing is reported in the end. -/
theorem InStep.assuming (he : Effect w w₁) (he' : Effect u u₁)
    (h : ∀ {ρ : Pairing}, w.Paired ρ u → w₁.diagnostics = [] → InStep w u w₁ u₁) :
    InStep w u w₁ u₁ where
  effect := he
  effect' := he'
  keeps hw hclean hnow := (h hw hclean).keeps hw hclean hnow

/-- What happens without a scope being entered. -/
theorem InStep.of_paired (he : Effect w w₁) (he' : Effect u u₁)
    (hforks : w₁.scope.forks = w.scope.forks) (hforks' : u₁.scope.forks = u.scope.forks)
    (htime : w.Valid → w.currentTime ≤ w₁.currentTime)
    (h : ∀ {ρ : Pairing}, w.Paired ρ u → ∃ ρ' : Pairing, ρ'.Extends ρ ∧ w₁.Paired ρ' u₁) :
    InStep w u w₁ u₁ where
  effect := he
  effect' := he'
  keeps hw _ _ := .of_forks 0 0 (h hw) (htime hw.sound.valid) hforks hforks' .rfl

theorem inStep_report (reports : List Diagnostic) (w u : Walk ℚ) :
    InStep w u (w.report reports) (u.report reports) :=
  .of_paired (.report w reports) (.report u reports) rfl rfl (fun _ => le_rfl)
    fun h => ⟨_, .refl _, h.report reports⟩

/-- What is done to both scopes alike takes no time. -/
theorem inStep_rescope {f : Scope ℚ → Scope ℚ}
    (hf : ∀ a id forks, f (a.onto id forks) = (f a).onto id forks)
    (hfe : ∀ a, (f a).element = a.element) (w u : Walk ℚ) :
    InStep w u { w with scope := f w.scope } { u with scope := f u.scope } := by
  have heffect : ∀ v : Walk ℚ, Effect v { v with scope := f v.scope } :=
    fun v => .rescope v _ (hfe v.scope) (Scope.eq_of_onto hf v.scope).1
  refine .of_paired (heffect w) (heffect u) (Scope.eq_of_onto hf w.scope).2
    (Scope.eq_of_onto hf u.scope).2 (fun _ => ?_)
    fun h => ⟨_, .refl _, h.rescope (h.scope.map hf) (heffect w) (heffect u)⟩
  -- the scope stands on the timeline where it stood
  show w.currentTime ≤ (w.score.timeline (f w.scope).timeline).currentTime
  rw [(Scope.eq_of_onto hf w.scope).1]
  exact le_rfl

theorem inStep_after (kind : Kind) (w u : Walk ℚ) : InStep w u (w.after kind) (u.after kind) :=
  inStep_rescope (f := fun a => { a with previous := some kind }) (fun _ _ _ => rfl)
    (fun _ => rfl) w u

theorem inStep_withTimings (timings : Option (Timings ℚ)) (w u : Walk ℚ) :
    InStep w u (w.withTimings timings) (u.withTimings timings) :=
  inStep_rescope (f := fun a => { a with timings := timings }) (fun _ _ _ => rfl)
    (fun _ => rfl) w u

/-- New options are read the same way, and what is wrong with them is reported in both. -/
theorem inStep_update (keep : Bool) (options : Option (Options ℚ)) (w u : Walk ℚ) :
    InStep w u (w.update keep options) (u.update keep options) := by
  refine .assuming (Effect.compositional.update keep options w)
    (Effect.compositional.update keep options u) fun h _ => ?_
  -- the options of both are those of the first walk, so `inStep_rescope` applies to a constant
  have hrescope := inStep_rescope (w := w) (u := u)
    (f := fun a => { a with options := (w.scope.options.update keep options).1 })
    (fun _ _ _ => rfl) (fun _ => rfl)
  have hu : u.update keep options =
      { u with scope := { u.scope with options := (w.scope.options.update keep options).1 } }.report
        (w.scope.options.update keep options).2 := by
    rw [← h.scope.options_eq]
    rfl
  rw [hu]
  exact hrescope.trans (inStep_report _ _ _)

/-! ### The clock and the styles -/

/-- A change of the timelines of the scopes that does not turn back the clock. -/
theorem inStep_change {c : Change ℚ}
    (hc : w.currentTime ≤ ((w.score.scene w.scope.timeline).change c).timeline.currentTime) :
    InStep w u (w.edit (·.change c)) (u.edit (·.change c)) := by
  refine .of_paired (.change w c) (.change u c) rfl rfl (fun hv => ?_)
    fun h => ⟨_, .refl _, h.change c⟩
  have hedit : (w.edit (·.change c)).timeline =
      ((w.score.scene w.scope.timeline).change c).timeline :=
    Score.timeline_edit_self _ hv.timeline
  -- the clock is that of the timeline that was changed
  show w.currentTime ≤ (w.edit (·.change c)).timeline.currentTime
  rw [hedit]
  exact hc

/-- A change of styles takes no time. -/
theorem inStep_change_of_skeleton_eq {c : Change ℚ}
    (hc : ∀ s : Scene ℚ, (s.change c).timeline.skeleton = s.timeline.skeleton) (w u : Walk ℚ) :
    InStep w u (w.edit (·.change c)) (u.edit (·.change c)) :=
  inStep_change (Timeline.currentTime_eq_of_skeleton_eq (hc _)).ge

theorem inStep_flush (w u : Walk ℚ) : InStep w u (w.edit Scene.flush) (u.edit Scene.flush) :=
  inStep_change_of_skeleton_eq (c := .flush) Scene.skeleton_flush w u

theorem inStep_snapshot (w u : Walk ℚ) :
    InStep w u (w.edit Scene.snapshot) (u.edit Scene.snapshot) :=
  inStep_change_of_skeleton_eq (c := .snapshot) Scene.skeleton_snapshot w u

/-- Styles are written in both. -/
theorem inStep_writeAt (entries : List (StyleEntry ℚ)) (easing : Option String)
    (w u : Walk ℚ) :
    InStep w u (w.writeAt w.scope.timeline entries easing)
      (u.writeAt u.scope.timeline entries easing) := by
  refine .of_paired (Effect.compositional.writeAt entries easing w)
    (Effect.compositional.writeAt entries easing u) rfl rfl (fun hv => ?_)
    fun h => ⟨_, .refl _, h.writeAt entries easing⟩
  have htimeline : (w.writeAt w.scope.timeline entries easing).timeline =
      ((w.score.scene w.scope.timeline).setStyles entries easing
        w.scope.options.params).1.timeline :=
    Score.timeline_edit_self (fun s => (s.setStyles entries easing w.scope.options.params).1)
      hv.timeline
  rw [currentTime, currentTime, htimeline]
  exact (Timeline.currentTime_eq_of_skeleton_eq ((w.score.scene w.scope.timeline).skeleton_setStyles
    entries easing _)).ge

/-- Both clocks are moved on by a time that is not negative. -/
theorem inStep_advance {time : ℚ} (h : 0 ≤ time) (w u : Walk ℚ) :
    InStep w u (w.advance time) (u.advance time) := by
  refine .assuming (Effect.compositional.advance time w) (Effect.compositional.advance time u)
    fun hw _ => ?_
  have hmove : InStep w u (w.edit (·.change (.moveTo (w.timeline.duration + time))))
      (u.edit (·.change (.moveTo (w.timeline.duration + time)))) := by
    refine inStep_change ?_
    show _ ≤ ((w.score.scene w.scope.timeline).forwardTo _).timeline.currentTime
    rw [Scene.currentTime_forwardTo]
    exact (add_le_add_iff_left _).2 (le_add_of_nonneg_right h)
  -- the target of the move is read off the clock, which is the same in both
  have hu : u.advance time = u.edit (·.change (.moveTo (w.timeline.duration + time))) := by
    rw [← hw.timeline_eq]
    rfl
  rw [hu]
  exact hmove

/-- A positive delay is waited for in both, and any other in neither. -/
theorem inStep_delay (time : ℚ) (w u : Walk ℚ) : InStep w u (w.delay time) (u.delay time) := by
  unfold Walk.delay
  split
  · refine inStep_change (c := .delay time) ?_
    show _ ≤ ((w.score.scene w.scope.timeline).delayNextStep time).timeline.currentTime
    rw [Scene.currentTime_delayNextStep]
    exact le_add_of_nonneg_right (le_of_lt ‹_›)
  · exact .refl w u

/-! ### New timelines -/

theorem inStep_renew_none (w u : Walk ℚ) : InStep w u (w.renew none) (u.renew none) := by
  refine .of_paired (effect_renew none w) (effect_renew none u) rfl rfl (fun _ => ?_)
    fun h => ⟨_, Pairing.extends_join _ _ _, h.renew none⟩
  obtain ⟨lineage, own, hnew⟩ := timeline_renew none w
  rw [currentTime, currentTime, hnew]
  exact (add_zero w.currentTime).ge

/-- A time of zero counts as none. -/
theorem le_currentTime_renew {now time : ℚ} (hnow : now ≤ w.currentTime) (htime : now ≤ time) :
    now ≤ (w.renew (some time)).currentTime := by
  rw [currentTime_renew]
  simp only [Score.forkTime]
  -- the walk goes on where it stood, if no time is given
  split
  · exact htime
  · exact hnow

/-- Going on at a time that is not before the current one. -/
theorem InStep.renew_some {time time' : ℚ} (h : InStep w u w₁ u₁)
    (htime : ∀ {ρ : Pairing}, w.Paired ρ u → w₁.diagnostics = [] → 0 ≤ w.currentTime →
      w.currentTime ≤ time ∧ time' = time) :
    InStep w u (w₁.renew (some time)) (u₁.renew (some time')) where
  effect := h.effect.trans (effect_renew _ _)
  effect' := h.effect'.trans (effect_renew _ _)
  keeps hw hclean hnow := by
    have hclean' := (effect_renew (some time) w₁).precedes.clean hclean
    obtain ⟨⟨ρ₁, hρ₁, hw₁⟩, hle, hforks, hforks', hiff⟩ := h.keeps hw hclean' hnow
    obtain ⟨hlater, rfl⟩ := htime hw hclean' hnow
    exact ⟨⟨_, (ρ₁.extends_join _ _).trans hρ₁, hw₁.renew _⟩, le_currentTime_renew hle hlater,
      hforks, hforks', hiff⟩

/-! ### Scopes in step -/

section Enter

variable {v v' inner inner' : Walk ℚ} {options : Option (Options ℚ)} {element element' : ElementId}

/-- What happens in scopes that are entered from paired walks. -/
theorem InStep.entered
    (h : InStep (v.enter options element) (v'.enter options element') inner inner')
    (hv : v.Paired ρ v') (helement : element' = element) (hclean : inner.diagnostics = [])
    (hnow : 0 ≤ v.currentTime) :
    ∃ ρ' : Pairing, ρ'.Extends (ρ.join v.score.timelines.length v'.score.timelines.length) ∧
      inner.Paired ρ' inner' ∧ v.currentTime ≤ inner.currentTime := by
  subst helement
  have htime := currentTime_enter v options element'
  obtain ⟨⟨ρ', hρ', hinner⟩, hle, -⟩ :=
    h.keeps (hv.enter options element') hclean (htime.symm ▸ hnow)
  exact ⟨ρ', hρ', hinner, htime ▸ hle⟩

/-- What happens in scopes that are left takes no time outside. -/
theorem inStep_leave (he : Effect (w.enter options w.scope.element) inner)
    (he' : Effect (u.enter options u.scope.element) inner')
    (h : ∀ {ρ : Pairing}, w.Paired ρ u → inner.diagnostics = [] → 0 ≤ w.currentTime →
      ∃ ρ' : Pairing, ρ'.Extends ρ ∧ inner.PairedOutside ρ' inner') :
    InStep w u (leave w.scope inner) (leave u.scope inner') where
  effect := .leave rfl rfl rfl he
  effect' := .leave rfl rfl rfl he'
  keeps hw hclean hnow := by
    obtain ⟨ρ', hρ', hinner⟩ := h hw hclean hnow
    have hleft := hw.leave hρ' hinner (.leave rfl rfl rfl he) (.leave rfl rfl rfl he')
    exact .of_forks 1 1 ⟨ρ', hρ', hleft⟩
      (spared_leave hw.sound.valid rfl rfl he).currentTime_eq.ge rfl rfl .rfl

/-- Scopes that are entered in step and left again. -/
theorem InStep.leave (h : InStep (w.enter options w.scope.element)
      (u.enter options u.scope.element) inner inner') :
    InStep w u (Walk.leave w.scope inner) (Walk.leave u.scope inner') := by
  refine inStep_leave h.effect h.effect' fun {ρ} hw hclean hnow => ?_
  obtain ⟨ρ', hρ', hinner, -⟩ := h.entered hw hw.scope.element_eq hclean hnow
  exact ⟨ρ', hρ'.trans (ρ.extends_join _ _), hinner.outside⟩

end Enter

end InStep

end Walk

end Choreography
