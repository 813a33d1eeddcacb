/-
Choreography/Proofs/Shown.lean

How a written style gets onto a keyframe.

A style that was written waits until the current keyframe of its timeline is finished, and
from then on some keyframe shows it.  No operation takes back what waits or is shown
(`Timeline.Retains`, `Score.retains_performAll`).

So a style can be lost only if its timeline is abandoned while the style waits.  A walk
never does that within a scope: it goes on in another timeline by a fork, which finishes the
keyframe (`Walk.Delivers`).  Once a keyframe shows the style the timeline has something to
show, and an instruction carries it (`carries_of_shows`).
-/
import Choreography.Proofs.Finish
import Choreography.Proofs.Run
import Choreography.Proofs.Styles

namespace Choreography

variable {τ : Type}

/-! ### Timelines -/

namespace Timeline

/-- Some keyframe has a value for a property. -/
def Shows (t : Timeline τ) (p : String) : Prop := ∃ k ∈ t.keyframes, p ∈ k.styles.keys

/-- The clock is at a keyframe. -/
def Grounded (t : Timeline τ) : Prop := t.current < t.keyframes.length

/-- What is shown stays so, and what waits goes on waiting or is shown. -/
structure Retains (t t' : Timeline τ) : Prop where
  grounded : t.Grounded → t'.Grounded
  shows : ∀ p, t.Shows p → t'.Shows p
  waits : t.Grounded → ∀ p ∈ t.pending.keys, p ∈ t'.pending.keys ∨ t'.Shows p

theorem Retains.refl (t : Timeline τ) : Retains t t :=
  ⟨id, fun _ => id, fun _ _ => .inl⟩

theorem Retains.trans {t t₁ t₂ : Timeline τ} (h : Retains t t₁) (h' : Retains t₁ t₂) :
    Retains t t₂ where
  grounded := h'.grounded ∘ h.grounded
  shows p := h'.shows p ∘ h.shows p
  waits hg p hp := by
    rcases h.waits hg p hp with hp | hp
    · exact h'.waits (h.grounded hg) p hp
    · exact .inr (h'.shows p hp)

/-- As far as keyframes are concerned, only what waits may change, and nothing leaves. -/
theorem Retains.of_eq {t t' : Timeline τ} (hk : t'.keyframes = t.keyframes)
    (hc : t'.current = t.current) (hp : ∀ p ∈ t.pending.keys, p ∈ t'.pending.keys) :
    Retains t t' where
  grounded hg := by
    rw [Grounded, hk, hc]
    exact hg
  shows p h := by
    rw [Shows, hk]
    exact h
  waits _ p h := .inl (hp p h)

/-- Changing a keyframe takes nothing back if the keyframe keeps its properties. -/
theorem shows_modify {keyframes : List (TimedKeyframe τ)} {f : TimedKeyframe τ → TimedKeyframe τ}
    (hf : ∀ (k : TimedKeyframe τ), ∀ p ∈ k.styles.keys, p ∈ (f k).styles.keys) (i : Nat)
    {p : String} (h : ∃ k ∈ keyframes, p ∈ k.styles.keys) :
    ∃ k ∈ keyframes.modify i f, p ∈ k.styles.keys := by
  obtain ⟨k, hk, hp⟩ := h
  -- the keyframe stays in its place, changed or not
  obtain ⟨j, hj⟩ := List.mem_iff_getElem?.1 hk
  have hget : (keyframes.modify i f)[j]? = some (if i = j then f k else k) := by
    rw [List.getElem?_modify, hj]
    split <;> rfl
  refine ⟨_, List.mem_of_getElem? hget, ?_⟩
  split
  · exact hf k p hp
  · exact hp

/-- One keyframe may be changed if it keeps its properties. -/
theorem Retains.modify {t t' : Timeline τ} {f : TimedKeyframe τ → TimedKeyframe τ} {i : Nat}
    (hf : ∀ (k : TimedKeyframe τ), ∀ p ∈ k.styles.keys, p ∈ (f k).styles.keys)
    (hk : t'.keyframes = t.keyframes.modify i f) (hc : t'.current = t.current)
    (hp : ∀ p ∈ t.pending.keys, p ∈ t'.pending.keys ∨ t'.Shows p) : Retains t t' where
  grounded hg := by
    rw [Grounded, hk, hc, List.length_modify]
    exact hg
  shows p h := by
    rw [Shows, hk]
    exact shows_modify hf i h
  waits _ := hp

theorem retains_easePrevious (easing : Option String) (t : Timeline τ) :
    Retains t (t.easePrevious easing) := by
  unfold easePrevious
  split
  · next e i _ =>
    exact .modify (f := fun k => { k with easing := some e }) (fun _ _ => id) rfl rfl fun _ => .inl
  · exact .refl t

variable [Quantity τ]

/-- A new keyframe, to which the clock goes, takes nothing back. -/
theorem retains_loadKeyframe (t : Timeline τ) (duration : τ) :
    Retains t { t with duration := duration }.loadKeyframe := by
  unfold loadKeyframe
  dsimp only
  split
  · next i hi =>
    refine ⟨fun _ => ?_, fun _ => id, fun _ _ => .inl⟩
    obtain ⟨hlt, -⟩ := List.findIdx?_eq_some_iff_getElem.1 hi
    exact hlt
  · refine ⟨fun _ => ?_, fun p ⟨k, hk, hp⟩ => ⟨k, List.mem_append_left _ hk, hp⟩, fun _ _ => .inl⟩
    show t.keyframes.length < (t.keyframes ++ [_]).length
    simp

omit [Quantity τ] in
/-- A timeline that shows something is not left out. -/
theorem containsAnimation_of_shows {t : Timeline τ} (hg : t.Grounded) {p : String}
    (h : t.Shows p) : t.containsAnimation = true := by
  obtain ⟨k, hk, hp⟩ := h
  unfold containsAnimation
  -- a single keyframe counts if it is the current one and shows something
  split
  · next hnil =>
    rw [hnil] at hk
    cases hk
  · next k' hone =>
    rw [hone, List.mem_singleton] at hk
    subst hk
    have hcurrent : t.current = 0 := by
      rw [Grounded, hone] at hg
      exact Nat.lt_one_iff.1 hg
    have hentries : k.styles.entries ≠ [] := by
      rintro hnil
      rw [OrderedMap.keys, hnil] at hp
      cases hp
    simp [hasCurrentStyles, currentStyles, hone, hcurrent, OrderedMap.isEmpty, hentries]
  · rfl

end Timeline

/-! ### Scenes -/

namespace Scene

open Timeline

/-- Finishing a keyframe shows what waits. -/
theorem shows_flush {s : Scene τ} (hg : s.timeline.Grounded) {p : String}
    (hp : p ∈ s.timeline.pending.keys) : s.flush.timeline.Shows p := by
  unfold flush
  split
  · next hempty =>
    rw [OrderedMap.isEmpty, List.isEmpty_iff] at hempty
    rw [OrderedMap.keys, hempty] at hp
    cases hp
  · -- the current keyframe is there to be changed
    have hget : ∀ f : TimedKeyframe τ → TimedKeyframe τ,
        (s.timeline.keyframes.modify s.timeline.current f)[s.timeline.current]?
          = some (f s.timeline.keyframes[s.timeline.current]) := by
      intro f
      rw [List.getElem?_modify, List.getElem?_eq_getElem hg]
      simp
    refine ⟨_, List.mem_of_getElem? (hget _), ?_⟩
    exact OrderedMap.mem_keys_fill.2 (.inl (OrderedMap.mem_keys_insertAll.2 (.inr hp)))

/-- To finish a keyframe takes nothing back, and shows what waits. -/
theorem retains_flush (s : Scene τ) : Retains s.timeline s.flush.timeline := by
  by_cases hempty : s.timeline.pending.isEmpty = true
  · have hsame : s.flush = s := by simp [flush, hempty]
    rw [hsame]
    exact .refl _
  · refine ⟨fun hg => ?_, fun p h => ?_, fun hg p hp => .inr (shows_flush hg hp)⟩
    · simp only [flush, hempty, onTimeline, modifyCurrent, Grounded]
      simpa [Grounded] using hg
    · simp only [flush, hempty]
      refine shows_modify (fun k p hp => ?_) s.timeline.current h
      exact OrderedMap.mem_keys_fill.2 (.inl (OrderedMap.mem_keys_insertAll.2 (.inl hp)))

variable [Quantity τ]

/-- To take note of a value leaves the keyframes alone. -/
theorem retains_note (s : Scene τ) (property : String) (value : StyleValue τ) :
    Retains s.timeline (s.note property value).timeline :=
  .of_eq rfl rfl fun _ => id

omit [Quantity τ] in
theorem retains_queue (s : Scene τ) (property : String) (value : StyleValue τ) :
    Retains s.timeline (s.queue property value).timeline :=
  .of_eq rfl rfl fun _ hp => OrderedMap.mem_keys_insert.2 (.inr hp)

theorem retains_write (s : Scene τ) (property : String) (value : StyleValue τ) :
    Retains s.timeline (s.write property value).timeline := by
  unfold write backfill
  split
  · exact (retains_queue s property value).trans (retains_note _ property value)
  · refine (retains_queue s property value).trans (Retains.trans ?_ (retains_note _ property value))
    exact .of_eq rfl rfl fun _ => id

theorem retains_writeAll (params : Params τ) (styles : List (String × StyleValue τ))
    (s : Scene τ) : Retains s.timeline (s.writeAll params styles).1.timeline :=
  writeAll_induct (P := fun u => Retains s.timeline u.timeline) (.refl _)
    fun u hu entry _ => hu.trans (retains_write u entry.1 _)

theorem retains_snapshot (s : Scene τ) : Retains s.timeline s.snapshot.timeline :=
  snapshot_induct (P := fun u => Retains s.timeline u.timeline) (.refl _)
    fun u hu entry _ =>
      hu.trans ((retains_queue u entry.1 entry.2).trans (retains_note _ entry.1 entry.2))

theorem retains_forwardTo (s : Scene τ) (time : τ) :
    Retains s.timeline (s.forwardTo time).timeline :=
  (retains_flush s).trans (retains_loadKeyframe s.flush.timeline time)

/-- No change takes anything back. -/
theorem retains_change (s : Scene τ) (c : Change τ) : Retains s.timeline (s.change c).timeline := by
  -- the clock is moved only after a flush, or by a frame
  cases c with
  | ease easing => exact .of_eq rfl rfl fun _ => id
  | nextFrame => exact retains_loadKeyframe s.timeline _
  | moveTo time => exact retains_forwardTo s time
  | delay time =>
    simp only [change, delayNextStep]
    split
    · split
      · exact (retains_forwardTo s _).trans (retains_snapshot _)
      · exact retains_forwardTo s _
    · exact .of_eq rfl rfl fun _ => id
  | write entries easing params =>
    exact (retains_easePrevious easing s.timeline).trans
      (retains_writeAll params (flatten s.shared entries).entries
        (s.onTimeline (easePrevious easing)))
  | emptyStep easing =>
    refine (retains_easePrevious easing s.timeline).trans ?_
    exact .modify (fun _ _ hp => OrderedMap.mem_keys_insertAll.2 (.inl hp)) rfl rfl fun _ => .inl
  | flush => exact retains_flush s
  | snapshot => exact retains_snapshot s

theorem retains_merge (s : Scene τ) (other : Timeline τ) :
    Retains s.timeline (s.merge other).timeline :=
  merge_induct (P := fun u => Retains s.timeline u.timeline) (.refl _)
    fun u hu entry _ => hu.trans (retains_note u entry.1 entry.2.value)

end Scene

/-! ### Scores -/

namespace Score

variable [Quantity τ]

/-- An edit of one timeline leaves the others alone. -/
theorem retains_edit {s : Score τ} {target : TimelineId} {f : Scene τ → Scene τ}
    (hf : (s.timeline target).Retains (f (s.scene target)).timeline) (id : TimelineId) :
    (s.timeline id).Retains ((s.edit target f).timeline id) := by
  rw [edit, timeline_put]
  split
  · next h =>
    rw [← h.1]
    exact hf
  · exact .refl _

/-- No operation takes anything back. -/
theorem retains_perform {s : Score τ} {id : TimelineId} (op : Operation τ)
    (h : id < s.timelines.length) : (s.timeline id).Retains ((s.perform op).timeline id) := by
  cases op with
  | begin element start =>
    rw [timeline_perform h (by simp [Operation.target?])]
    exact .refl _
  | fork source element at? =>
    show (s.timeline id).Retains ((s.fork source element at?).2.timeline id)
    rw [timeline_fork_of_lt _ _ _ h]
    exact retains_edit (Scene.retains_flush (s.scene source)) id
  | change target c =>
    exact retains_edit (f := (·.change c)) (Scene.retains_change (s.scene target) c) id
  | merge into source =>
    show (s.timeline id).Retains ((s.merge into source).timeline id)
    unfold merge
    split
    · exact .refl _
    · exact retains_edit (Scene.retains_merge (s.scene into) _) id
  | place p => exact .refl _

/-- No run takes back what waits or is shown. -/
theorem retains_performAll {s : Score τ} {id : TimelineId} (ops : List (Operation τ))
    (h : id < s.timelines.length) : (s.timeline id).Retains ((s.performAll ops).timeline id) := by
  induction ops generalizing s with
  | nil => exact .refl _
  | cons op ops ih =>
    exact (retains_perform op h).trans
      (ih (Nat.lt_of_lt_of_le h (length_timelines_perform s op)))

/-- Every timeline is at a keyframe, and is listed. -/
structure Sound (s : Score τ) : Prop where
  grounded : ∀ id, (s.timeline id).Grounded
  complete : ∀ id < s.timelines.length, .timeline id ∈ s.order

/-- An edit keeps timelines sound if it retains what they have. -/
theorem Sound.edit {s : Score τ} (h : s.Sound) {target : TimelineId} {f : Scene τ → Scene τ}
    (hf : (s.timeline target).Retains (f (s.scene target)).timeline) : (s.edit target f).Sound where
  grounded id := (retains_edit hf id).grounded (h.grounded id)
  complete id hid := by
    rw [length_timelines_edit] at hid
    exact h.complete id hid

/-- A new timeline is at its first keyframe, and listed. -/
theorem Sound.enter {s : Score τ} (h : s.Sound) (lineage : Nat) (element : ElementId) (start : τ) :
    (s.enter lineage element start).2.Sound where
  grounded id := by
    -- a timeline is an old one, the new one, or none at all
    rcases Nat.lt_trichotomy id s.timelines.length with hlt | rfl | hgt
    · rw [timeline_enter_of_lt lineage element start hlt]
      exact h.grounded id
    · rw [timeline_enter_self]
      exact Nat.zero_lt_one
    · rw [timeline, List.getD_eq_default _ _ (by rw [length_timelines_enter]; exact hgt)]
      exact Nat.zero_lt_one
  complete id hid := by
    rw [length_timelines_enter] at hid
    rw [order_enter]
    rcases Nat.lt_succ_iff_lt_or_eq.1 hid with hlt | rfl
    · exact List.mem_append_left _ (h.complete id hlt)
    · exact List.mem_append_right _ (List.mem_singleton_self _)

/-- Every operation keeps timelines sound. -/
theorem Sound.perform {s : Score τ} (h : s.Sound) (op : Operation τ) : (s.perform op).Sound := by
  cases op with
  | begin element start =>
    exact Sound.enter (s := { s with lineages := s.lineages + 1 }) ⟨h.grounded, h.complete⟩ _ _ _
  | fork id element at? =>
    show (s.fork id element at?).2.Sound
    rw [fork_eq]
    exact (h.edit (Scene.retains_flush (s.scene id))).enter _ _ _
  | change target c => exact h.edit (f := (·.change c)) (Scene.retains_change (s.scene target) c)
  | merge into source =>
    show (s.merge into source).Sound
    unfold merge
    split
    · exact h
    · exact h.edit (Scene.retains_merge (s.scene into) _)
  | place p => exact ⟨h.grounded, fun id hid => List.mem_append_left _ (h.complete id hid)⟩

theorem Sound.performAll {s : Score τ} (h : s.Sound) (ops : List (Operation τ)) :
    (s.performAll ops).Sound := by
  induction ops generalizing s with
  | nil => exact h
  | cons op ops ih => exact ih (h.perform op)

theorem sound_empty : (empty : Score τ).Sound :=
  ⟨fun _ => Nat.zero_lt_one, fun _ h => absurd h (Nat.not_lt_zero _)⟩

end Score

/-! ### Walks -/

namespace Walk

variable [Quantity τ]

/-- What waits on the timeline of the scope goes on waiting there or is shown. -/
structure Delivers (w w' : Walk τ) : Prop where
  effect : Effect w w'
  waits : w.scope.timeline < w.score.timelines.length → w.timeline.Grounded →
    ∀ p ∈ w.timeline.pending.keys, (w'.score.timeline w.scope.timeline).Shows p ∨
      (w'.scope.timeline = w.scope.timeline ∧ p ∈ w'.timeline.pending.keys)

variable {w w₁ w₂ : Walk τ}

theorem Precedes.retains (h : Precedes w w₁) {id : TimelineId}
    (hid : id < w.score.timelines.length) :
    (w.score.timeline id).Retains (w₁.score.timeline id) := by
  obtain ⟨ops, hs⟩ := h.operations
  rw [hs]
  exact Score.retains_performAll ops hid

namespace Delivers

theorem refl (w : Walk τ) : Delivers w w := ⟨.refl w, fun _ _ _ hp => .inr ⟨rfl, hp⟩⟩

/-- What waits first may be shown in the first part, or wait on to the second. -/
theorem trans (h : Delivers w w₁) (h' : Delivers w₁ w₂) : Delivers w w₂ where
  effect := h.effect.trans h'.effect
  waits hid hg p hp := by
    have hid₁ := Nat.lt_of_lt_of_le hid h.effect.length_le
    rcases h.waits hid hg p hp with hshows | ⟨hline, hp₁⟩
    · exact .inl ((h'.effect.precedes.retains hid₁).shows p hshows)
    · -- it still waits on the timeline of the scope, so the second part delivers it
      rw [← hline] at hid₁ ⊢
      refine h'.waits hid₁ ?_ p hp₁
      rw [timeline, hline]
      exact (h.effect.precedes.retains hid).grounded hg

/-- While the scope stays on its timeline, whatever waits is retained. -/
theorem of_effect (h : Effect w w₁) (hline : w₁.scope.timeline = w.scope.timeline) :
    Delivers w w₁ where
  effect := h
  waits hid hg p hp := by
    rcases (h.precedes.retains hid).waits hg p hp with hp | hp
    · refine .inr ⟨hline, ?_⟩
      rw [timeline, hline]
      exact hp
    · exact .inl hp

/-- A fork shows what waits. -/
theorem shows_fork (hid : w.scope.timeline < w.score.timelines.length)
    (hg : w.timeline.Grounded) {p : String} (hp : p ∈ w.timeline.pending.keys)
    (element : ElementId) (at? : Option τ) :
    ((w.score.fork w.scope.timeline element at?).2.timeline w.scope.timeline).Shows p := by
  rw [Score.timeline_fork_of_lt _ _ _ hid, Score.timeline_edit_self _ hid]
  exact Scene.shows_flush hg hp

/-- Nothing is lost between the walks before and after a node. -/
theorem compositional : Compositional (Delivers : Walk τ → Walk τ → Prop) where
  refl := refl
  trans := trans
  change w c := .of_effect (.change w c) rfl
  merge source w := .of_effect (effect_merge source w) rfl
  place p w := .of_effect (Effect.compositional.place p w) rfl
  rescope w scope he ht := .of_effect (.rescope w scope he ht) ht
  report w reports := .of_effect (.report w reports) rfl
  renew at? w := ⟨effect_renew at? w, fun hid hg _ hp => .inl (shows_fork hid hg hp _ _)⟩
  leave := by
    intro w u inner options element hs hd ht h
    refine ⟨.leave hs hd ht h.effect, fun hid hg p hp => .inl ?_⟩
    -- to enter the inner scope was to fork, by which all that waits was shown
    have hentered : ((u.enter options element).score.timeline w.scope.timeline).Shows p := by
      rw [enter_score, hs, ht]
      exact shows_fork hid hg hp element none
    have hlt : w.scope.timeline < (u.enter options element).score.timelines.length := by
      rw [enter_length, hs]
      exact Nat.lt_succ_of_lt hid
    exact (h.effect.precedes.retains hlt).shows p hentered

/-- What waits is shown once the keyframe is finished, wherever the scope stands by then. -/
theorem shows_flush (h : Delivers w w₁) (hid : w.scope.timeline < w.score.timelines.length)
    (hg : w.timeline.Grounded) {p : String} (hp : p ∈ w.timeline.pending.keys) :
    ((w₁.edit Scene.flush).score.timeline w.scope.timeline).Shows p := by
  have hflush := Effect.change w₁ .flush
  have hid₁ := Nat.lt_of_lt_of_le hid h.effect.length_le
  -- what has not been shown by then waits on the timeline that is flushed
  rcases h.waits hid hg p hp with hshows | ⟨hline, hp₁⟩
  · exact (hflush.precedes.retains hid₁).shows p hshows
  · have hg₁ : w₁.timeline.Grounded := by
      rw [timeline, hline]
      exact (h.effect.precedes.retains hid).grounded hg
    rw [← hline] at hid₁ ⊢
    show ((w₁.score.edit w₁.scope.timeline Scene.flush).timeline w₁.scope.timeline).Shows p
    rw [Score.timeline_edit_self _ hid₁]
    exact Scene.shows_flush hg₁ hp₁

end Delivers

end Walk

/-! ### Instructions -/

/-- The timelines of a run are at keyframes and listed. -/
theorem Walk.sound_of_start [Quantity τ] {root : ElementId} {setup : Setup τ}
    {sink : List Diagnostic} {w : Walk τ} (h : (Walk.start root setup sink).Precedes w) :
    w.score.Sound := by
  obtain ⟨ops, hops⟩ := ((Walk.effect_start root setup sink).precedes.trans h).operations
  rw [hops]
  exact (Score.sound_empty.perform (.begin root 0)).performAll ops

/-- Whether an instruction is for an element and has a value for a property. -/
def Instruction.Carries (i : Instruction τ) (element : ElementId) (p : String) : Prop :=
  i.element = element ∧ ∃ k ∈ i.keyframes, p ∈ k.styles.keys

instance (i : Instruction τ) (element : ElementId) (p : String) :
    Decidable (i.Carries element p) :=
  inferInstanceAs (Decidable (_ ∧ _))

/-- Whether a property of an element occurs in some keyframe of some instruction. -/
def Compiled.Carries (c : Compiled τ) (element : ElementId) (p : String) : Prop :=
  ∃ i ∈ c.instructions, i.Carries element p

instance (c : Compiled τ) (element : ElementId) (p : String) : Decidable (c.Carries element p) :=
  inferInstanceAs (Decidable (∃ i ∈ c.instructions, i.Carries element p))

variable [Quantity τ]

/-- An instruction carries what its keyframes show. -/
theorem Scene.carries_toInstruction {s : Scene τ} {p : String} (h : s.timeline.Shows p) :
    s.toInstruction.Carries s.timeline.element p := by
  obtain ⟨k, hk, hp⟩ := s.retains_flush.shows p h
  refine ⟨congrArg Skeleton.element s.skeleton_flush, ?_⟩
  obtain ⟨k', hk', hstyles⟩ := Scene.mem_styles_toInstruction.2 ⟨k, hk, rfl⟩
  refine ⟨k', hk', ?_⟩
  rw [hstyles]
  exact OrderedMap.mem_keys_insertAll.2 (.inr hp)

section Compile

variable {host : Host} {root : ElementId} {tree : Animation τ} {setup : Setup τ}
  {delegated : InstructionMap τ}

/-- A property is carried if one of the entries that are animated carries it. -/
theorem carries_iff {element : ElementId} {p : String} :
    let run := Walk.run (setup.setting host delegated) root tree setup []
    (compile host root tree setup delegated).Carries element p ↔
      ∃ e ∈ run.score.animated,
        ((run.finish root setup).score.instruction e).Carries element p := by
  intro run
  show (∃ i ∈ (if run.score.animated.isEmpty then [Instruction.empty root setup.delay]
    else run.score.animated.map (run.finish root setup).score.instruction),
      i.Carries element p) ↔ _
  split
  · next hnone =>
    -- the single empty instruction has no keyframes
    rw [List.isEmpty_iff] at hnone
    rw [hnone]
    simp [Instruction.Carries, Instruction.empty]
  · simp

/-- What is shown on the way is carried in the end. -/
theorem carries_of_shows {u : Walk τ} {id : TimelineId} {p : String}
    (hu : u.Precedes (.run (setup.setting host delegated) root tree setup []))
    (hid : id < u.score.timelines.length) (h : (u.score.timeline id).Shows p) :
    (compile host root tree setup delegated).Carries (u.score.timeline id).element p := by
  let run := Walk.run (setup.setting host delegated) root tree setup []
  have hfinish := Walk.precedes_finish root setup run
  have hsound : run.score.Sound := Walk.sound_of_start (tree.effect _ _).precedes
  have hid' : id < run.score.timelines.length := Nat.lt_of_lt_of_le hid hu.length_le
  have hshows := (hu.retains hid).shows p h
  -- the timeline is listed, and has something to show
  have hanimated : .timeline id ∈ run.score.animated :=
    List.mem_filter.2 ⟨hsound.complete id hid',
      Timeline.containsAnimation_of_shows (hsound.grounded id) hshows⟩
  have helement : ((run.finish root setup).score.timeline id).element
      = (u.score.timeline id).element :=
    congrArg (fun o => o.2.1) ((hu.trans hfinish).owner_eq hid)
  have hcarries := Scene.carries_toInstruction (s := (run.finish root setup).score.scene id)
    ((hfinish.retains hid').shows p hshows)
  exact carries_iff.2 ⟨.timeline id, hanimated, helement ▸ hcarries⟩

end Compile

end Choreography
