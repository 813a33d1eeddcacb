/-
Choreography/Proofs/Styles.lean

What operations do to the styles of a timeline and to what is known of its element.

Nothing that is known is forgotten, and a property gets onto a keyframe, or into the queue
for one, only together with the branch knowing it or with a backfill (`Scene.Grows`).  This
holds of every operation, whichever timeline it is aimed at (`Score.grows_perform`): the
others change what a branch knows through the styles that an element shares.
-/
import Choreography.Proofs.Operation

namespace Choreography

variable {τ : Type}

/-! ### What is known -/

namespace Scene

theorem mem_modify {f : TimedKeyframe τ → TimedKeyframe τ} {keyframes : List (TimedKeyframe τ)}
    {i : Nat} {k : TimedKeyframe τ} (h : k ∈ keyframes.modify i f) :
    k ∈ keyframes ∨ ∃ k' ∈ keyframes, k = f k' := by
  obtain ⟨j, hj⟩ := List.mem_iff_getElem?.1 h
  rw [List.getElem?_modify, Option.map_eq_map, Option.map_eq_some_iff] at hj
  obtain ⟨k', hk', rfl⟩ := hj
  have hmem := List.mem_of_getElem? hk'
  by_cases hij : i = j
  · exact .inr ⟨k', hmem, by simp [hij]⟩
  · exact .inl (by simpa [hij] using hmem)

/-- Whether a property is on a keyframe or waits for one. -/
def Holds (s : Scene τ) (p : String) : Prop :=
  p ∈ s.timeline.pending.keys ∨ ∃ k ∈ s.timeline.keyframes, p ∈ k.styles.keys

/-- What the branch knows is its memory, or what is shared. -/
theorem known_onTimeline {s : Scene τ} {f : Timeline τ → Timeline τ}
    (h : (f s.timeline).own = s.timeline.own) : (s.onTimeline f).known = s.known := by
  show (f s.timeline).own.getD s.shared = _
  rw [h]
  rfl

/-- What waits for a keyframe is not known by that. -/
@[simp] theorem known_queue (s : Scene τ) (property : String) (value : StyleValue τ) :
    (s.queue property value).known = s.known := rfl

@[simp] theorem known_backfill (s : Scene τ) (property : String) :
    (s.backfill property).known = s.known := by
  unfold backfill
  split <;> rfl

theorem known_easePrevious (s : Scene τ) (easing : Option String) :
    (s.onTimeline (Timeline.easePrevious easing)).known = s.known := by
  apply known_onTimeline
  unfold Timeline.easePrevious
  split <;> rfl

@[simp] theorem known_flush (s : Scene τ) : s.flush.known = s.known := by
  unfold flush
  split <;> rfl

@[simp] theorem backfill_flush (s : Scene τ) : s.flush.timeline.backfill = s.timeline.backfill := by
  unfold flush
  split <;> rfl

variable [Quantity τ]

/-- To take note of a value makes it known. -/
theorem known_note (s : Scene τ) (property : String) (value : StyleValue τ) :
    (s.note property value).known = s.known.insert property value := by
  unfold note known
  cases s.timeline.own <;> rfl

theorem known_write (s : Scene τ) (property : String) (value : StyleValue τ) :
    (s.write property value).known = s.known.insert property value := by
  rw [write, known_note, known_backfill, known_queue]

/-! ### Growing -/

/-- From one scene to the next nothing is forgotten, and what the keyframes hold in the end
they held before, or it is known or backfilled. -/
structure Grows (s s' : Scene τ) : Prop where
  shared : ∀ p ∈ s.shared.keys, p ∈ s'.shared.keys
  known : ∀ p ∈ s.known.keys, p ∈ s'.known.keys
  backfill : ∀ p ∈ s.timeline.backfill.keys, p ∈ s'.timeline.backfill.keys
  holds : ∀ p, s'.Holds p → s.Holds p ∨ p ∈ s'.known.keys ∨ p ∈ s'.timeline.backfill.keys

omit [Quantity τ] in
theorem Grows.refl (s : Scene τ) : Grows s s :=
  ⟨fun _ h => h, fun _ h => h, fun _ h => h, fun _ h => .inl h⟩

omit [Quantity τ] in
theorem Grows.trans {s s₁ s₂ : Scene τ} (h : Grows s s₁) (h' : Grows s₁ s₂) : Grows s s₂ where
  shared p hp := h'.shared p (h.shared p hp)
  known p hp := h'.known p (h.known p hp)
  backfill p hp := h'.backfill p (h.backfill p hp)
  holds p hp := by
    rcases h'.holds p hp with h₁ | h₂
    · rcases h.holds p h₁ with h₀ | hk | hb
      · exact .inl h₀
      · exact .inr (.inl (h'.known p hk))
      · exact .inr (.inr (h'.backfill p hb))
    · exact .inr h₂

omit [Quantity τ] in
/-- An operation on the timeline alone that does not touch what is known or backfilled. -/
theorem grows_onTimeline {s : Scene τ} {f : Timeline τ → Timeline τ}
    (ho : (f s.timeline).own = s.timeline.own)
    (hb : (f s.timeline).backfill = s.timeline.backfill)
    (hh : ∀ p, (s.onTimeline f).Holds p → s.Holds p ∨ p ∈ s.known.keys) :
    Grows s (s.onTimeline f) where
  shared p hp := hp
  known p hp := by
    rw [known_onTimeline ho]
    exact hp
  backfill p hp := by
    show p ∈ (f s.timeline).backfill.keys
    rw [hb]
    exact hp
  holds p hp := by
    rw [known_onTimeline ho]
    rcases hh p hp with h | h
    · exact .inl h
    · exact .inr (.inl h)

omit [Quantity τ] in
theorem grows_easePrevious (s : Scene τ) (easing : Option String) :
    Grows s (s.onTimeline (Timeline.easePrevious easing)) := by
  apply grows_onTimeline
  · unfold Timeline.easePrevious
    split <;> rfl
  · unfold Timeline.easePrevious
    split <;> rfl
  · intro p hp
    left
    have hp' : p ∈ (Timeline.easePrevious easing s.timeline).pending.keys ∨
        ∃ k ∈ (Timeline.easePrevious easing s.timeline).keyframes, p ∈ k.styles.keys := hp
    unfold Timeline.easePrevious at hp'
    split at hp'
    · rcases hp' with hp | ⟨k, hk, hp⟩
      · exact .inl hp
      · rcases mem_modify hk with hk | ⟨k', hk', rfl⟩
        · exact .inr ⟨k, hk, hp⟩
        · exact .inr ⟨k', hk', hp⟩
    · exact hp'

/-- A value is noted, and nothing is forgotten. -/
theorem grows_note (s : Scene τ) (property : String) (value : StyleValue τ) :
    Grows s (s.note property value) where
  shared p hp := OrderedMap.mem_keys_insert.2 (.inr hp)
  known p hp := by
    rw [known_note]
    exact OrderedMap.mem_keys_insert.2 (.inr hp)
  backfill p hp := hp
  holds p hp := .inl hp

/-- Queueing a value and taking note of it. -/
theorem grows_note_queue (s : Scene τ) (property : String) (value : StyleValue τ) :
    Grows s ((s.queue property value).note property value) where
  shared p hp := OrderedMap.mem_keys_insert.2 (.inr hp)
  known p hp := by
    rw [known_note, known_queue]
    exact OrderedMap.mem_keys_insert.2 (.inr hp)
  backfill p hp := hp
  holds p hp := by
    rw [known_note, known_queue]
    rcases hp with hp | hp
    · rcases OrderedMap.mem_keys_insert.1 hp with rfl | hp
      · exact .inr (.inl (OrderedMap.mem_keys_insert.2 (.inl rfl)))
      · exact .inl (.inl hp)
    · exact .inl (.inr hp)

/-- A written value waits, and is known from then on. -/
theorem grows_write (s : Scene τ) (property : String) (value : StyleValue τ) :
    Grows s (s.write property value) := by
  unfold write backfill
  split
  · exact grows_note_queue s property value
  · -- the backfill is put between the two, where nobody looks at it
    refine (grows_note_queue s property value).trans ⟨fun p h => h, fun p h => h, ?_, ?_⟩
    · exact fun p hp => OrderedMap.mem_keys_insert.2 (.inr hp)
    · exact fun p hp => .inl hp

theorem grows_writeAll (params : Params τ) (styles : List (String × StyleValue τ))
    (s : Scene τ) : Grows s (s.writeAll params styles).1 :=
  writeAll_induct (.refl s) fun u hu entry _ => hu.trans (grows_write u entry.1 _)

/-- A step sets an easing and writes its styles. -/
theorem grows_setStyles (entries : List (StyleEntry τ)) (easing : Option String)
    (params : Params τ) (s : Scene τ) : Grows s (s.setStyles entries easing params).1 :=
  (grows_easePrevious s easing).trans (grows_writeAll _ _ _)

omit [Quantity τ] in
/-- An empty step shows only what it backfills. -/
theorem grows_setEmptyStep (easing : Option String) (s : Scene τ) :
    Grows s (s.setEmptyStep easing) := by
  refine (grows_easePrevious s easing).trans ⟨fun p h => h, fun p h => h, ?_, ?_⟩
  · exact fun p hp => OrderedMap.mem_keys_insertAll.2 (.inl hp)
  · intro p hp
    rcases hp with hp | ⟨k, hk, hp⟩
    · exact .inl (.inl hp)
    · rcases mem_modify hk with hk | ⟨k', hk', rfl⟩
      · exact .inl (.inr ⟨k, hk, hp⟩)
      · rcases OrderedMap.mem_keys_insertAll.1 hp with hp | hp
        · exact .inl (.inr ⟨k', hk', hp⟩)
        · -- the player is asked for all that is shared, and all of it is backfilled
          right
          right
          rw [List.map_map] at hp
          exact OrderedMap.mem_keys_insertAll.2 (.inr (by simpa [OrderedMap.keys] using hp))

omit [Quantity τ] in
/-- A finished keyframe shows what waited, and what is known. -/
theorem grows_flush (s : Scene τ) : Grows s s.flush := by
  unfold flush
  split
  · exact .refl s
  · refine grows_onTimeline rfl rfl ?_
    intro p hp
    -- nothing waits any more, and the current keyframe got what did and what is known
    rcases hp with hp | ⟨k, hk, hp⟩
    · cases hp
    · rcases mem_modify hk with hk | ⟨k', hk', rfl⟩
      · exact .inl (.inr ⟨k, hk, hp⟩)
      · rcases OrderedMap.mem_keys_fill.1 hp with hp | hp
        · rcases OrderedMap.mem_keys_insertAll.1 hp with hp | hp
          · exact .inl (.inr ⟨k', hk', hp⟩)
          · exact .inl (.inl hp)
        · exact .inr hp

/-- What is known is queued again. -/
theorem grows_snapshot (s : Scene τ) : Grows s s.snapshot :=
  snapshot_induct (.refl s) fun u hu entry _ => hu.trans (grows_note_queue u entry.1 entry.2)

theorem grows_loadKeyframe (s : Scene τ) (time : τ) :
    Grows s (s.onTimeline fun t => { t with duration := time }.loadKeyframe) := by
  -- a keyframe that is made has no styles
  have hnew : ∀ (t : Timeline τ) (k : TimedKeyframe τ), k ∈ t.loadKeyframe.keyframes →
      k ∈ t.keyframes ∨ k.styles = ∅ := by
    intro t k hk
    simp only [Timeline.loadKeyframe] at hk
    split at hk
    · exact .inl hk
    · rcases List.mem_append.1 hk with hk | hk
      · exact .inl hk
      · rw [List.mem_singleton] at hk
        exact .inr (hk ▸ rfl)
  refine grows_onTimeline ?_ ?_ ?_
  · simp only [Timeline.loadKeyframe]
    split <;> rfl
  · simp only [Timeline.loadKeyframe]
    split <;> rfl
  · rintro p (hp | ⟨k, hk, hp⟩)
    · refine .inl (.inl ?_)
      simp only [onTimeline, Timeline.loadKeyframe] at hp
      split at hp <;> exact hp
    · rcases hnew _ k hk with hk | he
      · exact .inl (.inr ⟨k, hk, hp⟩)
      · rw [he] at hp
        cases hp

theorem grows_forwardTo (s : Scene τ) (time : τ) : Grows s (s.forwardTo time) :=
  (grows_flush s).trans (grows_loadKeyframe s.flush time)

/-- A delay moves the clock or the start. -/
theorem grows_delayNextStep (s : Scene τ) (time : τ) : Grows s (s.delayNextStep time) := by
  simp only [delayNextStep]
  split
  · split
    · exact (grows_forwardTo s _).trans (grows_snapshot _)
    · exact grows_forwardTo s _
  · exact grows_onTimeline rfl rfl fun p hp => .inl hp

/-- Whatever happens to a timeline, it grows. -/
theorem grows_change (s : Scene τ) (c : Change τ) : Grows s (s.change c) := by
  -- one kind of change after another
  cases c with
  | ease easing =>
    show Grows s (s.onTimeline fun t => { t with easing := easing })
    exact grows_onTimeline rfl rfl fun p hp => .inl hp
  | nextFrame => exact grows_loadKeyframe s _
  | moveTo time => exact grows_forwardTo s time
  | delay time => exact grows_delayNextStep s time
  | write entries easing params => exact grows_setStyles entries easing params s
  | emptyStep easing => exact grows_setEmptyStep easing s
  | flush => exact grows_flush s
  | snapshot => exact grows_snapshot s

/-- A merge takes note of what is newer, or does nothing. -/
theorem grows_merge (s : Scene τ) (other : Timeline τ) : Grows s (s.merge other) :=
  merge_induct (.refl s) fun u hu entry _ => hu.trans (grows_note u entry.1 entry.2.value)

end Scene

/-! ### Scores -/

namespace Score

variable [Quantity τ]

/-- To put a scene back changes what is known of its element. -/
theorem known_put (s : Score τ) (id : TimelineId) (scene : Scene τ) (lineage : Nat)
    (element : ElementId) :
    (s.put id scene).known lineage element =
      if (lineage, element) = ((s.timeline id).lineage, (s.timeline id).element) then
        scene.shared else s.known lineage element := by
  simp only [known, put, OrderedMap.get?_insert]
  split <;> rfl

theorem known_enter (s : Score τ) (lineage : Nat) (element : ElementId) (start : τ)
    (lineage' : Nat) (element' : ElementId) :
    (s.enter lineage element start).2.known lineage' element' = s.known lineage' element' := by
  simp only [known, enter]
  by_cases h : s.shared.contains (lineage, element)
  · simp [h]
  · -- the first timeline of an element makes room for what is known, and that is nothing yet
    simp only [h, Bool.not_false, ↓reduceIte, OrderedMap.get?_insert]
    split
    · rename_i he
      rw [he, OrderedMap.get?_eq_none_iff.2 fun hm => h (OrderedMap.contains_iff_mem_keys.2 hm)]
      rfl
    · rfl

/-- The old timelines see what they saw. -/
theorem scene_enter_of_lt {s : Score τ} {id : TimelineId} (lineage : Nat) (element : ElementId)
    (start : τ) (h : id < s.timelines.length) :
    (s.enter lineage element start).2.scene id = s.scene id := by
  simp only [scene, timeline_enter_of_lt lineage element start h, known_enter]

/-- The timeline that is entered knows nothing that is not shared. -/
theorem scene_enter_self (s : Score τ) (lineage : Nat) (element : ElementId) (start : τ) :
    ∃ own, (s.enter lineage element start).2.scene s.timelines.length =
      ⟨.begin lineage element start own, s.known lineage element⟩ ∧
        own.getD (s.known lineage element) = ∅ := by
  simp only [scene, timeline_enter_self]
  -- the element is known, and the timeline gets a memory, or it is the first one
  by_cases h : s.shared.contains (lineage, element)
  · exact ⟨some ∅, by simp [h, known_enter, Timeline.begin], rfl⟩
  · refine ⟨none, by simp [h, known_enter, Timeline.begin], ?_⟩
    have hnone : s.shared.get? (lineage, element) = none := by
      rw [OrderedMap.get?_eq_none_iff]
      exact fun hm => h (OrderedMap.contains_iff_mem_keys.2 hm)
    simp [known, hnone]

/-- The scene of a timeline after another one, or itself, was edited. -/
theorem scene_edit_self {s : Score τ} {id : TimelineId} {f : Scene τ → Scene τ}
    (hf : (f (s.scene id)).timeline.owner = (s.timeline id).owner)
    (h : id < s.timelines.length) : (s.edit id f).scene id = f (s.scene id) := by
  have hl : (f (s.scene id)).timeline.lineage = (s.timeline id).lineage :=
    congrArg (fun o => o.1) hf
  have he : (f (s.scene id)).timeline.element = (s.timeline id).element :=
    congrArg (fun o => o.2.1) hf
  rw [scene, timeline_edit_self f h, edit, known_put, hl, he, if_pos rfl]

/-- What an edit of some timeline does to the scene of any. -/
theorem grows_edit {s : Score τ} {id : TimelineId} (target : TimelineId)
    {f : Scene τ → Scene τ} (hf : ∀ scene, Scene.Grows scene (f scene))
    (ho : ∀ scene, (f scene).timeline.owner = scene.timeline.owner)
    (h : id < s.timelines.length) : Scene.Grows (s.scene id) ((s.edit target f).scene id) := by
  -- the edited timeline itself, or another one, which may be of the same element
  by_cases hid : target = id
  · subst hid
    rw [scene_edit_self (ho _) h]
    exact hf _
  · have ht : (s.edit target f).timeline id = s.timeline id := timeline_edit_of_ne f hid
    -- the timeline stays, but what is known of its element may be shared with the target
    have hshared : ∀ p ∈ (s.scene id).shared.keys, p ∈ ((s.edit target f).scene id).shared.keys := by
      intro p hp
      show p ∈ ((s.edit target f).known ((s.edit target f).timeline id).lineage _).keys
      rw [ht, edit, known_put]
      split
      · rename_i hk
        obtain ⟨hl, he⟩ := Prod.mk.inj hk
        apply (hf (s.scene target)).shared p
        show p ∈ (s.known (s.timeline target).lineage (s.timeline target).element).keys
        rw [← hl, ← he]
        exact hp
      · exact hp
    have htimeline : ((s.edit target f).scene id).timeline = (s.scene id).timeline := ht
    refine ⟨hshared, ?_, ?_, ?_⟩
    · intro p hp
      rw [Scene.known, htimeline]
      rw [Scene.known] at hp
      cases ho : (s.scene id).timeline.own with
      | none =>
        rw [ho] at hp
        exact hshared p hp
      | some own =>
        rw [ho] at hp
        exact hp
    · intro p hp
      rw [htimeline]
      exact hp
    · intro p hp
      rw [Scene.Holds, htimeline] at hp
      exact .inl hp

/-- What an operation does to the scene of any timeline that is there. -/
theorem grows_perform {s : Score τ} {id : TimelineId} (op : Operation τ)
    (h : id < s.timelines.length) : Scene.Grows (s.scene id) ((s.perform op).scene id) := by
  -- three kinds of operation edit a timeline; a new one is not this one
  cases op with
  | begin element start =>
    have hs : (s.perform (.begin element start)).scene id = s.scene id :=
      scene_enter_of_lt (s := { s with lineages := s.lineages + 1 }) _ _ _ h
    rw [hs]
    exact .refl _
  | fork source element at? =>
    show Scene.Grows (s.scene id) ((s.fork source element at?).2.scene id)
    rw [fork_eq, scene_enter_of_lt]
    · exact grows_edit source Scene.grows_flush (fun scene => scene.owner_change .flush) h
    · rwa [length_timelines_edit]
  | change target c =>
    exact grows_edit target (fun scene => scene.grows_change c) (fun scene => scene.owner_change c) h
  | merge into source =>
    show Scene.Grows (s.scene id) ((s.merge into source).scene id)
    unfold merge
    split
    · exact .refl _
    · exact grows_edit into (fun scene => scene.grows_merge _) (fun scene => scene.owner_merge _) h
  | place p => exact .refl _

end Score

end Choreography
