/-
Choreography/Proofs/Progress.lean

What a node does to the time.

`Walk.Spans` says of two walks that whatever was entered between them begins at the current
time of the first or later, and is over at a given time, which is not before the current
time of the first either.  The timeline of the first walk is over at that time, too, for
the steps in between may have gone on in it.  Entries for which this is not asserted are
singled out by a predicate.

A node has a span in this sense (`Walk.Reaches`); most nodes then leave the clock of their
scope at its end (`Walk.Proceeds`).  Spans are put together like effects: one after
another (`Proceeds.trans`), around a scope that was entered and left (`Reaches.leave`), and
closed by going on in a new timeline at the end (`Reaches.renew`).
-/
import Choreography.Proofs.Clock
import Choreography.Proofs.Visit

namespace Choreography

namespace Walk

variable {D : Placement ℚ → Prop} {S : Entry ℚ → Prop} {w w₁ w₂ : Walk ℚ} {f g : ℚ}

/-! ### Entries of a later walk -/

theorem registered_of_order_eq (h : w₁.score.order = w.score.order) : w.registered w₁ = [] := by
  rw [registered, h, List.drop_length]

theorem mem_order_of_mem_registered {e : Entry ℚ} (h : e ∈ w.registered w₁) :
    e ∈ w₁.score.order :=
  List.mem_of_mem_drop h

/-- The times of an entry depend on the clock of its timeline only. -/
theorem times_eq_of_skeleton_eq {s s' : Score ℚ} {e : Entry ℚ}
    (h : ∀ id, e = .timeline id → (s'.timeline id).skeleton = (s.timeline id).skeleton) :
    s'.begins e = s.begins e ∧ s'.ends e = s.ends e := by
  cases e with
  | timeline id =>
    exact ⟨congrArg Skeleton.start (h id rfl), Timeline.currentTime_eq_of_skeleton_eq (h id rfl)⟩
  | placed p => exact ⟨rfl, rfl⟩

/-- A node does not change the times of the entries that are there, except for the timeline
of its scope. -/
theorem Effect.times_eq (h : Effect w w₁) (hv : w.Valid) {e : Entry ℚ} (he : e ∈ w.score.order)
    (hne : e ≠ .timeline w.scope.timeline) :
    w₁.score.begins e = w.score.begins e ∧ w₁.score.ends e = w.score.ends e := by
  apply times_eq_of_skeleton_eq
  rintro id rfl
  rw [h.timeline_eq (hv.listed id he) fun hid => hne (congrArg Entry.timeline hid)]

/-! ### Spans -/

/-- What was entered between two walks lies between the current time of the first and a
given time. -/
structure Spans (D : Placement ℚ → Prop) (S : Entry ℚ → Prop) (w w' : Walk ℚ) (f : ℚ) : Prop where
  clocked : w'.score.Clocked D
  le : w.currentTime ≤ f
  line_begins : w.timeline.start ≤ (w'.score.timeline w.scope.timeline).start
  line_ends : (w'.score.timeline w.scope.timeline).currentTime ≤ f
  begins : ∀ e ∈ w.registered w', w.currentTime ≤ w'.score.begins e
  ends : ∀ e ∈ w.registered w', S e ∨ w'.score.ends e ≤ f

/-- One span after another.  The second one begins where the first scope stands, which need
not be at the end of the first span. -/
theorem Spans.trans (h : Spans D S w w₁ f) (h' : Spans D S w₁ w₂ g) (he : Effect w w₁)
    (he' : Effect w₁ w₂) (hv : w.Valid) (hfg : f ≤ g) (ht : w.currentTime ≤ w₁.currentTime) :
    Spans D S w w₂ g := by
  have hv₁ := he.valid hv
  have hregistered := registered_trans he.precedes he'.precedes
  -- the timeline of the first scope is the one of the second, or the second leaves it alone
  have hline : w.scope.timeline = w₁.scope.timeline ∨
      w₂.score.timeline w.scope.timeline = w₁.score.timeline w.scope.timeline := by
    by_cases hl : w.scope.timeline = w₁.scope.timeline
    · exact .inl hl
    · exact .inr (he'.timeline_eq (Nat.lt_of_lt_of_le hv.timeline he.length_le) hl)
  -- the six clauses in turn; entries of the first part keep their times in the second
  refine ⟨h'.clocked, h.le.trans hfg, ?_, ?_, ?_, ?_⟩
  · rcases hline with hl | hl
    · refine h.line_begins.trans ?_
      rw [hl]
      exact h'.line_begins
    · rw [hl]
      exact h.line_begins
  · rcases hline with hl | hl
    · rw [hl]
      exact h'.line_ends
    · rw [hl]
      exact h.line_ends.trans hfg
  · intro e hmem
    rw [hregistered, List.mem_append] at hmem
    rcases hmem with hmem | hmem
    · by_cases hl : e = .timeline w₁.scope.timeline
      · -- the timeline in which the first one has gone on
        subst hl
        exact (h.begins _ hmem).trans h'.line_begins
      · rw [(he'.times_eq hv₁ (mem_order_of_mem_registered hmem) hl).1]
        exact h.begins e hmem
    · exact ht.trans (h'.begins e hmem)
  · intro e hmem
    rw [hregistered, List.mem_append] at hmem
    rcases hmem with hmem | hmem
    · by_cases hl : e = .timeline w₁.scope.timeline
      · subst hl
        exact .inr h'.line_ends
      · rw [(he'.times_eq hv₁ (mem_order_of_mem_registered hmem) hl).2]
        exact (h.ends e hmem).imp_right (·.trans hfg)
    · exact h'.ends e hmem

/-- A span may be given more time. -/
theorem Spans.widen (h : Spans D S w w₁ f) (hfg : f ≤ g) : Spans D S w w₁ g :=
  ⟨h.clocked, h.le.trans hfg, h.line_begins, h.line_ends.trans hfg, h.begins,
    fun e he => (h.ends e he).imp_right (·.trans hfg)⟩

/-! ### Reaching a time -/

/-- An effect that has a span, provided that nothing was reported. -/
structure Reaches (D : Placement ℚ → Prop) (S : Entry ℚ → Prop) (w w' : Walk ℚ) (f : ℚ) :
    Prop where
  effect : Effect w w'
  spans : w.Valid → w.score.Clocked D → w'.diagnostics = [] → Spans D S w w' f

/-- An effect whose span ends where the clock stands afterwards. -/
def Proceeds (D : Placement ℚ → Prop) (S : Entry ℚ → Prop) (w w' : Walk ℚ) : Prop :=
  Reaches D S w w' w'.currentTime

theorem Reaches.widen (h : Reaches D S w w₁ f) (hfg : f ≤ g) : Reaches D S w w₁ g :=
  ⟨h.effect, fun hv hc hclean => (h.spans hv hc hclean).widen hfg⟩

/-- One thing beside another: the scope stands where it stood. -/
theorem Reaches.beside (h : Reaches D S w w₁ f) (h' : Reaches D S w₁ w₂ g) (hfg : f ≤ g)
    (ht : w.Valid → w₁.currentTime = w.currentTime) : Reaches D S w w₂ g where
  effect := h.effect.trans h'.effect
  spans hv hc hclean := by
    have hs := h.spans hv hc (h'.effect.precedes.clean hclean)
    have hs' := h'.spans (h.effect.valid hv) hs.clocked hclean
    exact hs.trans hs' h.effect h'.effect hv hfg (ht hv).ge

/-- One thing after another. -/
theorem Proceeds.trans_reaches (h : Proceeds D S w w₁) (h' : Reaches D S w₁ w₂ f) :
    Reaches D S w w₂ f where
  effect := Effect.trans h.effect h'.effect
  spans hv hc hclean := by
    have hs := h.spans hv hc (h'.effect.precedes.clean hclean)
    have hs' := h'.spans (h.effect.valid hv) hs.clocked hclean
    exact hs.trans hs' h.effect h'.effect hv hs'.le hs.le

theorem Proceeds.trans (h : Proceeds D S w w₁) (h' : Proceeds D S w₁ w₂) : Proceeds D S w w₂ :=
  h.trans_reaches h'

/-! ### Changes of the timeline of the scope -/

/-- An effect on the styles alone takes no time. -/
theorem Reaches.of_skeleton_eq (he : Effect w w₁) (ho : w₁.score.order = w.score.order)
    (hl : w₁.scope.timeline = w.scope.timeline)
    (hs : ∀ id, (w₁.score.timeline id).skeleton = (w.score.timeline id).skeleton)
    (hp : ∀ p, .placed p ∈ w₁.score.order → .placed p ∈ w.score.order) : Proceeds D S w w₁ where
  effect := he
  spans hv hc hclean := by
    -- times are read off skeletons, and these are as before
    have htime : w₁.currentTime = w.currentTime := by
      rw [currentTime, timeline, hl]
      exact Timeline.currentTime_eq_of_skeleton_eq (hs _)
    refine ⟨⟨fun id => (hc.timelines id).of_skeleton_eq (hs id), fun p h => hc.placed p (hp p h)⟩,
      htime.ge, le_of_eq (congrArg Skeleton.start (hs _)).symm, ?_, ?_, ?_⟩
    · rw [htime]
      exact le_of_eq (Timeline.currentTime_eq_of_skeleton_eq (hs _))
    · rw [registered_of_order_eq ho]
      exact fun e he => by cases he
    · rw [registered_of_order_eq ho]
      exact fun e he => by cases he

theorem proceeds_refl (w : Walk ℚ) : Proceeds D S w w :=
  .of_skeleton_eq (.refl w) rfl rfl (fun _ => rfl) fun _ h => h

/-- A change that does not turn back the clock. -/
theorem proceeds_change {c : Change ℚ} (hc : c.Forward w.timeline) :
    Proceeds D S w (w.edit (·.change c)) where
  effect := .change w c
  spans hv hclocked hclean := by
    -- the changed timeline has gone on, and it is the only one that was changed
    have honward : w.timeline.Onward ((w.score.scene w.scope.timeline).change c).timeline :=
      Scene.onward_change (s := w.score.scene w.scope.timeline) (hclocked.timelines _) hc
    have hedit : (w.edit (·.change c)).timeline =
        ((w.score.scene w.scope.timeline).change c).timeline :=
      Score.timeline_edit_self _ hv.timeline
    have hnone : w.registered (w.edit (·.change c)) = [] := registered_of_order_eq rfl
    have hafter : (w.edit (·.change c)).score.Clocked D :=
      hclocked.edit (f := fun s => s.change c) honward.clocked
    refine ⟨hafter, ?_, ?_, le_rfl, ?_, ?_⟩
    · rw [currentTime, currentTime, hedit]
      exact honward.time_le
    · show w.timeline.start ≤ (w.edit (·.change c)).timeline.start
      rw [hedit]
      exact honward.start_le
    · rw [hnone]
      exact fun e he => by cases he
    · rw [hnone]
      exact fun e he => by cases he

/-! ### Going on in a new timeline -/

/-- A new timeline leaves the others alone, but for a finished keyframe. -/
theorem skeleton_renew {id : TimelineId} (at? : Option ℚ) (h : id < w.score.timelines.length) :
    ((w.renew at?).score.timeline id).skeleton = (w.score.timeline id).skeleton := by
  show ((w.score.fork _ _ _).2.timeline id).skeleton = _
  rw [Score.timeline_fork_of_lt _ _ _ h]
  exact Score.timeline_edit_induct (P := fun t => t.skeleton = (w.score.timeline id).skeleton)
    (fun he => (Scene.skeleton_flush _).trans he) rfl

/-- A time of zero would be taken for none, but then the clock stands at zero as well. -/
theorem forkTime_of_le {s : Score ℚ} {id : TimelineId} {time : ℚ}
    (hnow : 0 ≤ (s.timeline id).currentTime) (hle : (s.timeline id).currentTime ≤ time) :
    s.forkTime id (some time) = time := by
  simp only [Score.forkTime]
  split
  · rfl
  · rename_i hzero
    have htime : time = 0 := by simpa using hzero
    rw [htime] at hle ⊢
    exact le_antisymm hle hnow

theorem currentTime_renew (at? : Option ℚ) (w : Walk ℚ) :
    (w.renew at?).currentTime = w.score.forkTime w.scope.timeline at? := by
  obtain ⟨lineage, own, h⟩ := timeline_renew at? w
  rw [currentTime, h]
  exact add_zero _

/-- The new timeline is entered last. -/
theorem registered_renew (he : Effect w w₁) (at? : Option ℚ) :
    w.registered (w₁.renew at?) = w.registered w₁ ++ [.timeline w₁.score.timelines.length] := by
  rw [registered_trans he.precedes (effect_renew at? w₁).precedes, registered, registered,
    renew_order]
  simp

/-- A new timeline at the end of a span belongs to the span. -/
theorem Spans.renew (h : Spans D S w w₁ f) (he : Effect w w₁) (hv : w.Valid) {at? : Option ℚ}
    (hf : w₁.score.forkTime w₁.scope.timeline at? = f)
    (hat : ∀ time, at? = some time → 0 ≤ time) : Spans D S w (w₁.renew at?) f := by
  have hline := skeleton_renew at? (Nat.lt_of_lt_of_le hv.timeline he.length_le)
  have hregistered := registered_renew he at?
  obtain ⟨lineage, own, hnew⟩ := timeline_renew at? w₁
  rw [timeline, renew_timeline, hf] at hnew
  -- what is there keeps its times, for at most a keyframe is finished
  have htimes : ∀ e ∈ w.registered w₁, (w₁.renew at?).score.begins e = w₁.score.begins e ∧
      (w₁.renew at?).score.ends e = w₁.score.ends e := by
    intro e hmem
    apply times_eq_of_skeleton_eq
    rintro id rfl
    exact skeleton_renew at? ((he.valid hv).listed id (mem_order_of_mem_registered hmem))
  refine ⟨h.clocked.fork _ _ hat, h.le, ?_, ?_, ?_, ?_⟩
  · exact h.line_begins.trans (le_of_eq (congrArg Skeleton.start hline).symm)
  · rw [Timeline.currentTime_eq_of_skeleton_eq hline]
    exact h.line_ends
  · intro e hmem
    rw [hregistered, List.mem_append, List.mem_singleton] at hmem
    rcases hmem with hmem | rfl
    · rw [(htimes e hmem).1]
      exact h.begins e hmem
    · show w.currentTime ≤ ((w₁.renew at?).score.timeline w₁.score.timelines.length).start
      rw [hnew]
      exact h.le
  · intro e hmem
    rw [hregistered, List.mem_append, List.mem_singleton] at hmem
    rcases hmem with hmem | rfl
    · rw [(htimes e hmem).2]
      exact h.ends e hmem
    · right
      show ((w₁.renew at?).score.timeline w₁.score.timelines.length).currentTime ≤ f
      rw [hnew]
      exact (add_zero f).le

/-- Going on at the end of a span. -/
theorem Reaches.renew (h : Reaches D S w w₁ f)
    (hl : w.Valid → w₁.scope.timeline = w.scope.timeline) :
    Proceeds D S w (w₁.renew (some f)) where
  effect := h.effect.trans (effect_renew _ _)
  spans hv hc hclean := by
    have hs := h.spans hv hc ((effect_renew _ _).precedes.clean hclean)
    have hnonneg : 0 ≤ f := (hc.timelines w.scope.timeline).currentTime_nonneg.trans hs.le
    have hline := hs.line_ends
    rw [← hl hv] at hline
    -- the clock is not before zero, so the time of the fork is the one that was asked for
    have hfork : w₁.score.forkTime w₁.scope.timeline (some f) = f :=
      forkTime_of_le (hs.clocked.timelines _).currentTime_nonneg hline
    rw [currentTime_renew, hfork]
    exact hs.renew h.effect hv hfork fun time ht => by cases ht; exact hnonneg

/-- Going on in a new timeline at once. -/
theorem proceeds_renew (w : Walk ℚ) : Proceeds D S w (w.renew none) where
  effect := effect_renew none w
  spans hv hc hclean := by
    rw [currentTime_renew]
    have hs : Spans D S w w w.currentTime :=
      (proceeds_refl w).spans hv hc ((effect_renew _ _).precedes.clean hclean)
    exact hs.renew (.refl w) hv rfl fun time ht => by cases ht

/-! ### Scopes -/

/-- A scope begins where the clock stands. -/
theorem currentTime_enter (w : Walk ℚ) (options : Option (Options ℚ)) (element : ElementId) :
    (w.enter options element).currentTime = w.currentTime := by
  obtain ⟨lineage, own, h⟩ := enter_timeline_eq w options element
  rw [currentTime, h]
  exact add_zero _

theorem clocked_enter (h : w.score.Clocked D) (options : Option (Options ℚ))
    (element : ElementId) : (w.enter options element).score.Clocked D := by
  rw [enter_score]
  exact h.fork _ _ fun time ht => by cases ht

section Leave

variable {u inner : Walk ℚ} {options : Option (Options ℚ)} {element : ElementId}

/-- What a subtree has entered in a scope of its own, and the timeline that it was given. -/
theorem registered_leave (hs : u.score = w.score) (hd : u.diagnostics = w.diagnostics)
    (h : Effect (u.enter options element) inner) :
    w.registered (leave w.scope inner) =
      .timeline w.score.timelines.length :: (u.enter options element).registered inner := by
  have hprecedes : Precedes w (u.enter options element) :=
    (Precedes.of_eq hs hd).trans (.enter u options element)
  have hleave : Precedes (u.enter options element) (Walk.leave w.scope inner) :=
    h.precedes.trans (.of_eq rfl rfl)
  -- to enter the scope was to list its timeline
  have hfirst : w.registered (u.enter options element) = [.timeline w.score.timelines.length] := by
    rw [registered, enter_order, hs]
    simp
  rw [registered_trans hprecedes hleave, hfirst]
  rfl

/-- What has its span inside a scope has it outside, together with the timeline of the scope. -/
theorem Spans.leave (hs : u.score = w.score) (hd : u.diagnostics = w.diagnostics)
    (ht : u.scope.timeline = w.scope.timeline) (he : Effect (u.enter options element) inner)
    (hv : w.Valid) (h : Spans D S (u.enter options element) inner f) :
    Spans D S w (leave w.scope inner) f := by
  have hentered : (u.enter options element).scope.timeline = w.score.timelines.length := by
    rw [enter_timeline, hs]
  -- the timeline outside was flushed when the scope was entered, and not touched since
  have hskeleton : (Walk.leave w.scope inner).timeline.skeleton = w.timeline.skeleton := by
    rw [he.timeline_leave hv hs ht]
    exact Scene.skeleton_flush _
  have hregistered := registered_leave hs hd he
  have hnow : u.currentTime = w.currentTime := by
    rw [currentTime, timeline, hs, ht]
    rfl
  have htime : (u.enter options element).currentTime = w.currentTime := by
    rw [currentTime_enter, hnow]
  have hle : w.currentTime ≤ f := htime ▸ h.le
  refine ⟨h.clocked, hle, ?_, ?_, ?_, ?_⟩
  · exact le_of_eq (congrArg Skeleton.start hskeleton).symm
  · show (Walk.leave w.scope inner).timeline.currentTime ≤ f
    rw [Timeline.currentTime_eq_of_skeleton_eq hskeleton]
    exact hle
  · intro e hmem
    rw [hregistered, List.mem_cons] at hmem
    rcases hmem with rfl | hmem
    · -- the timeline that the subtree was given starts where the outer clock stands
      have hbegin := h.line_begins
      obtain ⟨lineage, own, hnew⟩ := enter_timeline_eq u options element
      rw [hnew, hentered] at hbegin
      exact hnow ▸ hbegin
    · exact htime ▸ h.begins e hmem
  · intro e hmem
    rw [hregistered, List.mem_cons] at hmem
    rcases hmem with rfl | hmem
    · have hend := h.line_ends
      rw [hentered] at hend
      exact .inr hend
    · exact h.ends e hmem

/-- The span of a subtree is a span for the outer scope. -/
theorem Reaches.leave (hs : u.score = w.score) (hd : u.diagnostics = w.diagnostics)
    (ht : u.scope.timeline = w.scope.timeline) (he : u.scope.element = w.scope.element)
    (h : Reaches D S (u.enter options element) inner f) :
    Reaches D S w (leave w.scope inner) f where
  effect := .leave hs hd ht h.effect
  spans hv hc hclean := by
    have hu := (hv.of_eq hs ht he).enter options element
    have hclocked : u.score.Clocked D := by
      rw [hs]
      exact hc
    exact (h.spans hu (clocked_enter hclocked options element) hclean).leave hs hd ht h.effect hv

end Leave

/-- If nothing at all is asserted of what was entered, the span ends where it began. -/
theorem Reaches.cover (h : Reaches D S w w₁ f) (hspared : w.Valid → Spared w w₁)
    (hS : ∀ e ∈ w.registered w₁, S e) : Proceeds D S w w₁ where
  effect := h.effect
  spans hv hc hclean := by
    have hs := h.spans hv hc hclean
    have hsp := hspared hv
    have htime : w₁.currentTime = w.currentTime :=
      hsp.currentTime_eq
    -- the ends are covered by the assertion, and the timeline of the scope is spared
    refine ⟨hs.clocked, htime.ge, hs.line_begins, ?_, hs.begins, fun e he => .inl (hS e he)⟩
    rw [← hsp.line]
    exact le_rfl

end Walk

end Choreography
