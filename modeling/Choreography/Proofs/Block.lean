/-
Choreography/Proofs/Block.lean

What scopes register and leave behind.

A scope that is entered from a walk and left again has registered a block of entries.  How
its instructions come about is asked twice.

Does it matter in which walk the scope was entered?  Not as long as the walks are alike and
know the same of what concerns the scope: then the scopes correspond
(`corresponds_enter_apart`), and so do their blocks (`Corresponds.emitted_registered`).

Can the instructions still change when the scope has been left?  Nobody comes back to its
timelines, but a timeline without a memory of its own builds on what is known of the element
in the end, as long as something waits there.  Of the timelines of an element in a lineage
only the first one has no memory (`Precedes.remembers`), and nothing waits there once the
scope has finished its keyframe (`Finishes.pending_flush`).
-/
import Choreography.Proofs.Correspondence.Nodes
import Choreography.Proofs.Gather

namespace Choreography

variable {τ : Type} [Quantity τ]

/-! ### Room for what is known -/

namespace Score

/-- Where a timeline shares what is known of its element. -/
def cell (s : Score τ) (id : TimelineId) : Nat × ElementId :=
  ((s.timeline id).lineage, (s.timeline id).element)

/-- There is room for what is known of the element of every timeline. -/
def Housed (s : Score τ) : Prop :=
  ∀ id < s.timelines.length, s.shared.contains (s.cell id) = true

theorem cell_eq_of_owner_eq {s s' : Score τ} {id : TimelineId}
    (h : (s'.timeline id).owner = (s.timeline id).owner) : s'.cell id = s.cell id :=
  Prod.ext (congrArg (fun o => o.1) h) (congrArg (fun o => o.2.1) h)

theorem contains_edit {s : Score τ} (id : TimelineId) (f : Scene τ → Scene τ)
    {key : Nat × ElementId} (h : s.shared.contains key = true) :
    (s.edit id f).shared.contains key = true := by
  rw [edit, contains_put, h, Bool.or_true]

/-- Room is never taken away. -/
theorem contains_perform {s : Score τ} (op : Operation τ) {key : Nat × ElementId}
    (h : s.shared.contains key = true) : (s.perform op).shared.contains key = true := by
  have henter : ∀ (s' : Score τ) lineage element start, s'.shared.contains key = true →
      (s'.enter lineage element start).2.shared.contains key = true := by
    intro s' lineage element start h'
    rw [contains_enter, h', Bool.or_true]
  -- room is made by entering a timeline, and an edit keeps it
  cases op with
  | begin element start => exact henter { s with lineages := _ } _ _ _ h
  | fork id element at? =>
    show (s.fork id element at?).2.shared.contains key = true
    rw [fork_eq]
    exact henter _ _ _ _ (contains_edit id _ h)
  | change id c => exact contains_edit id _ h
  | merge into source =>
    show (s.merge into source).shared.contains key = true
    unfold merge
    split
    · exact h
    · exact contains_edit into _ h
  | place p => exact h

/-- What is known of the element of a timeline has its room, and may be put back there. -/
theorem Housed.insert_shared {s : Score τ} (h : s.Housed) {id : TimelineId}
    (hid : id < s.timelines.length) :
    s.shared.insert (s.cell id) (s.scene id).shared = s.shared := by
  obtain ⟨known, hknown⟩ := Option.isSome_iff_exists.1
    ((OrderedMap.get?_isSome _ _).trans (h id hid))
  apply OrderedMap.insert_of_get?
  show _ = some ((s.shared.get? (s.cell id)).getD ∅)
  rw [hknown]
  rfl

/-- An edit that leaves alone what is known of the element leaves alone all that is known. -/
theorem Housed.shared_edit {s : Score τ} (h : s.Housed) {id : TimelineId}
    (hid : id < s.timelines.length) {f : Scene τ → Scene τ}
    (hf : (f (s.scene id)).shared = (s.scene id).shared) : (s.edit id f).shared = s.shared := by
  show s.shared.insert (s.cell id) (f (s.scene id)).shared = s.shared
  rw [hf, h.insert_shared hid]

/-- A timeline that an operation brings was entered for its element. -/
theorem exists_enter_of_perform {s : Score τ} {op : Operation τ} {id : TimelineId}
    (hnew : s.timelines.length ≤ id) (hid : id < (s.perform op).timelines.length) :
    ∃ (s' : Score τ) (lineage : Nat) (element : ElementId) (start : τ),
      (∀ key, s.shared.contains key = true → s'.shared.contains key = true) ∧
        s.perform op = (s'.enter lineage element start).2 ∧ id = s'.timelines.length := by
  have hlength : ∀ {s' : Score τ} {lineage element start},
      s'.timelines.length = s.timelines.length →
        id < (s'.enter lineage element start).2.timelines.length → id = s'.timelines.length := by
    intro s' lineage element start hs' hid'
    rw [length_timelines_enter] at hid'
    exact Nat.le_antisymm (Nat.le_of_lt_succ hid') (hs' ▸ hnew)
  -- only a beginning and a fork bring a timeline; the other operations edit one, or none
  have hedit : ∀ (target : TimelineId) (f : Scene τ → Scene τ),
      ¬id < (s.edit target f).timelines.length := by
    intro target f
    rw [length_timelines_edit]
    exact Nat.not_lt.2 hnew
  cases op with
  | begin element start =>
    exact ⟨{ s with lineages := s.lineages + 1 }, s.lineages, element, start, fun _ h => h, rfl,
      hlength rfl hid⟩
  | fork source element at? =>
    have hfork := fork_eq s source element at?
    change id < (s.fork source element at?).2.timelines.length at hid
    rw [hfork] at hid
    -- the fork enters it after the flush, which keeps all the room there is
    exact ⟨_, _, _, _, fun _ => contains_edit source _, congrArg Prod.snd hfork,
      hlength (length_timelines_edit s source _) hid⟩
  | change target c => exact absurd hid (hedit target _)
  | merge into source =>
    change id < (s.merge into source).timelines.length at hid
    unfold merge at hid
    split at hid
    · exact absurd hid (Nat.not_lt.2 hnew)
    · exact absurd hid (hedit into _)
  | place p => exact absurd hid (Nat.not_lt.2 hnew)

/-- Where there was room for every timeline, there still is after an operation. -/
theorem Housed.perform {s : Score τ} (h : s.Housed) (op : Operation τ) : (s.perform op).Housed := by
  intro id hid
  by_cases hold : id < s.timelines.length
  · rw [cell_eq_of_owner_eq (owner_perform op hold)]
    exact contains_perform op (h id hold)
  · -- a new timeline makes its own room
    obtain ⟨s', lineage, element, start, -, hs', rfl⟩ :=
      exists_enter_of_perform (Nat.not_lt.1 hold) hid
    have hcell : (s'.enter lineage element start).2.cell s'.timelines.length =
        (lineage, element) := by
      rw [cell, timeline_enter_self]
      rfl
    rw [hs', hcell, contains_enter, decide_eq_true rfl, Bool.true_or]

theorem Housed.performAll {s : Score τ} (h : s.Housed) (ops : List (Operation τ)) :
    (s.performAll ops).Housed := by
  induction ops generalizing s with
  | nil => exact h
  | cons op ops ih => exact ih (h.perform op)

theorem housed_empty : (empty : Score τ).Housed := fun id h => absurd h (Nat.not_lt_zero id)

/-- A timeline that is entered where there is room already has a memory of its own. -/
theorem remembers_performAll {s : Score τ} (ops : List (Operation τ)) {id : TimelineId}
    (hnew : s.timelines.length ≤ id) (hid : id < (s.performAll ops).timelines.length)
    (hroom : s.shared.contains ((s.performAll ops).cell id) = true) :
    ((s.performAll ops).timeline id).own.isSome = true := by
  -- on the operations, up to the one that enters the timeline; later ones do not change its owner
  induction ops generalizing s with
  | nil => exact absurd hid (Nat.not_lt.2 hnew)
  | cons op ops ih =>
    rw [performAll_cons] at hid hroom ⊢
    by_cases hop : id < (s.perform op).timelines.length
    · obtain ⟨s', lineage, element, start, hmono, hs', rfl⟩ := exists_enter_of_perform hnew hop
      have howner := owner_performAll ops hop
      rw [cell_eq_of_owner_eq howner, hs', cell, timeline_enter_self] at hroom
      have hroom' : s'.shared.contains (lineage, element) = true := hmono _ hroom
      have hown : ((s.perform op).timeline s'.timelines.length).own.isNone = false := by
        rw [hs', timeline_enter_self, if_pos hroom']
        rfl
      -- whether it has a memory is part of whose timeline it is
      have hfirst := congrArg (fun o => o.2.2) howner
      rw [← Option.not_isNone]
      exact congrArg Bool.not (hfirst.trans hown)
    · exact ih (Nat.not_lt.1 hop) hid (contains_perform op hroom)

end Score

namespace Walk

/-- There is room for everything in a run. -/
theorem housed_of_start {root : ElementId} {setup : Setup τ} {sink : List Diagnostic} {w : Walk τ}
    (h : (Walk.start root setup sink).Precedes w) : w.score.Housed := by
  obtain ⟨ops, hops⟩ := ((Walk.effect_start root setup sink).precedes.trans h).operations
  rw [hops]
  exact (Score.housed_empty.perform (.begin root 0)).performAll ops

/-- A walk that goes on keeps its room. -/
theorem Precedes.housed {w w' : Walk τ} (h : w.Precedes w') (hw : w.score.Housed) :
    w'.score.Housed := by
  obtain ⟨ops, hops⟩ := h.operations
  rw [hops]
  exact hw.performAll ops

theorem Precedes.remembers {w w' : Walk τ} (h : w.Precedes w') {id : TimelineId}
    (hnew : w.score.timelines.length ≤ id) (hid : id < w'.score.timelines.length)
    (hroom : w.score.shared.contains (w'.score.cell id) = true) :
    (w'.score.timeline id).own.isSome = true := by
  obtain ⟨ops, hops⟩ := h.operations
  rw [hops] at hid hroom ⊢
  exact Score.remembers_performAll ops hnew hid hroom

end Walk

/-! ### Timelines that are left -/

/-- A timeline whose instruction does not depend on what is known of the element. -/
def Timeline.Settled (t : Timeline τ) : Prop := t.pending.isEmpty = true ∨ t.own.isSome = true

omit [Quantity τ] in
/-- Nothing waits after a flush. -/
theorem Scene.pending_flush (s : Scene τ) : s.flush.timeline.pending.isEmpty = true := by
  unfold Scene.flush
  split
  · assumption
  · rfl

/-- The instruction of a settled timeline is read off the timeline alone. -/
theorem Scene.toInstruction_congr {s s' : Scene τ} (h : s'.timeline = s.timeline)
    (hs : s.timeline.Settled) : s'.toInstruction = s.toInstruction := by
  have hflush : s'.flush.timeline = s.flush.timeline := by
    unfold flush
    rw [h]
    split
    · exact h
    · -- something waits, so the timeline has a memory, and what is shared is not asked for
      rename_i hpending
      obtain ⟨own, hown⟩ := Option.isSome_iff_exists.1 (hs.resolve_left hpending)
      simp only [onTimeline, known, h, hown, Option.getD_some]
  unfold toInstruction
  rw [hflush]

/-- A timeline whose only keyframe holds nothing has nothing to show. -/
theorem Timeline.not_containsAnimation {t : Timeline τ} (h : t.keyframes = [⟨0, none, ∅⟩]) :
    t.containsAnimation = false := by
  have hstyles : t.currentStyles = ∅ := by
    rw [currentStyles, h, List.getElem?_singleton]
    split <;> rfl
  rw [containsAnimation, h, hasCurrentStyles, hstyles]
  rfl

/-- Entries whose timelines are settled have the same instructions in every score that has
these timelines. -/
theorem Score.emitted_congr {s s' : Score τ} {entries : List (Entry τ)}
    (h : ∀ id, .timeline id ∈ entries → s'.timeline id = s.timeline id ∧
      (s.timeline id).Settled) : s'.emitted entries = s.emitted entries := by
  have hfilter : entries.filter s'.containsAnimation = entries.filter s.containsAnimation := by
    refine List.filter_congr fun e he => ?_
    cases e with
    | timeline id => exact congrArg Timeline.containsAnimation (h id he).1
    | placed p => rfl
  rw [emitted, hfilter]
  refine List.map_congr_left fun e he => ?_
  cases e with
  | timeline id =>
    obtain ⟨htimeline, hsettled⟩ := h id (List.mem_filter.1 he).1
    exact Scene.toInstruction_congr htimeline hsettled
  | placed p => rfl

/-- Blocks show what they show one by one, and a timeline with nothing to show adds nothing. -/
theorem Score.emitted_blocks {s : Score τ} {id : TimelineId}
    (h : (s.timeline id).containsAnimation = false) (blocks : List (List (Entry τ))) :
    s.emitted (blocks.flatten ++ [.timeline id]) = (blocks.map s.emitted).flatten := by
  have hnone : s.emitted [.timeline id] = [] := by
    have hfilter : s.containsAnimation (.timeline id) = false := h
    rw [emitted, List.filter_cons_of_neg (by rw [hfilter]; exact Bool.false_ne_true)]
    rfl
  rw [emitted_append, hnone, List.append_nil, emitted_flatten]

namespace Walk

/-- If the scope has gone on in another timeline, nothing waits on the first one. -/
structure Finishes (w w' : Walk τ) : Prop where
  effect : Effect w w'
  pending : w.scope.timeline < w.score.timelines.length →
    w'.scope.timeline = w.scope.timeline ∨
      (w'.score.timeline w.scope.timeline).pending.isEmpty = true

namespace Finishes

variable {w w₁ w₂ : Walk τ}

theorem of_effect (h : Effect w w₁) (hline : w₁.scope.timeline = w.scope.timeline) :
    Finishes w w₁ :=
  ⟨h, fun _ => .inl hline⟩

/-- Once the first part has left the timeline, the second does not come back to it. -/
theorem trans (h : Finishes w w₁) (h' : Finishes w₁ w₂) : Finishes w w₂ where
  effect := h.effect.trans h'.effect
  pending hid := by
    have hid₁ := Nat.lt_of_lt_of_le hid h.effect.length_le
    by_cases hline : w₁.scope.timeline = w.scope.timeline
    · rw [← hline] at hid₁ ⊢
      exact h'.pending hid₁
    · -- nobody comes back to it
      right
      rw [h'.effect.timeline_eq hid₁ (Ne.symm hline)]
      exact (h.pending hid).resolve_left hline

/-- What finishes is put together like what has an effect. -/
theorem compositional : Compositional (Finishes : Walk τ → Walk τ → Prop) where
  refl w := .of_effect (.refl w) rfl
  trans := trans
  change w c := .of_effect (.change w c) rfl
  merge source w := .of_effect (effect_merge source w) rfl
  place p w := .of_effect (Effect.compositional.place p w) rfl
  rescope w scope he ht := .of_effect (.rescope w scope he ht) ht
  report w reports := .of_effect (.report w reports) rfl
  renew at? w := by
    -- a new timeline begins with a flush of the old one
    refine ⟨effect_renew at? w, fun hid => .inr ?_⟩
    show ((w.score.fork w.scope.timeline _ at?).2.timeline w.scope.timeline).pending.isEmpty = true
    rw [Score.timeline_fork_of_lt _ _ _ hid, Score.timeline_edit_self _ hid]
    exact Scene.pending_flush _
  leave hs hd ht h := .of_effect (.leave hs hd ht h.effect) rfl

/-- When the keyframe is finished nothing waits on the first timeline, wherever the scope
stands by then. -/
theorem pending_flush (h : Finishes w w₁) (hid : w.scope.timeline < w.score.timelines.length) :
    ((w₁.edit Scene.flush).score.timeline w.scope.timeline).pending.isEmpty = true := by
  have hid₁ := Nat.lt_of_lt_of_le hid h.effect.length_le
  by_cases hline : w₁.scope.timeline = w.scope.timeline
  · rw [← hline] at hid₁ ⊢
    show ((w₁.score.edit w₁.scope.timeline Scene.flush).timeline _).pending.isEmpty = true
    rw [Score.timeline_edit_self _ hid₁]
    exact Scene.pending_flush _
  · show ((w₁.score.edit w₁.scope.timeline Scene.flush).timeline _).pending.isEmpty = true
    rw [Score.timeline_edit_of_ne _ hline]
    exact (h.pending hid).resolve_left hline

end Finishes

/-! ### Scopes in different walks -/

/-- Two walks from which scopes are entered alike. -/
structure Alike (w u : Walk τ) : Prop where
  element : u.scope.element = w.scope.element
  previous : u.scope.previous = w.scope.previous
  timings : u.scope.timings = w.scope.timings
  params : u.scope.options.params = w.scope.options.params
  skeleton : u.timeline.skeleton = w.timeline.skeleton

section Alike

variable {w u v : Walk τ}

theorem Alike.refl (w : Walk τ) : Alike w w := ⟨rfl, rfl, rfl, rfl, rfl⟩

theorem Alike.symm (h : Alike w u) : Alike u w :=
  ⟨h.element.symm, h.previous.symm, h.timings.symm, h.params.symm, h.skeleton.symm⟩

theorem Alike.trans (h : Alike w u) (h' : Alike u v) : Alike w v :=
  ⟨h'.element.trans h.element, h'.previous.trans h.previous, h'.timings.trans h.timings,
    h'.params.trans h.params, h'.skeleton.trans h.skeleton⟩

theorem Alike.lineage_eq (h : Alike w u) : u.timeline.lineage = w.timeline.lineage :=
  congrArg Skeleton.lineage h.skeleton

/-- When a scope has been left it can be entered as before. -/
theorem alike_leave {inner : Walk τ} {options : Option (Options τ)} {element : ElementId}
    (hw : w.Valid) (hs : u.score = w.score) (ht : u.scope.timeline = w.scope.timeline)
    (h : Effect (u.enter options element) inner) : Alike w (leave w.scope inner) :=
  ⟨rfl, rfl, rfl, rfl, (spared_leave hw hs ht h).skeleton⟩

end Alike

end Walk

/-- Scopes that are entered from two walks, for which an extent is in common. -/
def Correspondence.apart (x : Extent) (w u : Walk τ) : Correspondence τ := ⟨.none, x, w, u⟩

namespace Walk

variable {x : Extent} {w u : Walk τ}

/-- With the keyframes of their scopes finished the scores correspond, with no timeline in common
yet. -/
theorem corresponds_flush_apart (hw : w.Valid) (hu : u.Valid) (hroom : w.score.Housed)
    (hroom' : u.score.Housed)
    (hshares : ∀ lineage element, x.Covers (lineage, element) →
      w.score.Shares x u.score lineage element) :
    (w.score.edit w.scope.timeline Scene.flush).Corresponds (.apart x w u)
      (u.score.edit u.scope.timeline Scene.flush) := by
  -- the keyframe that is finished makes no difference to what is known, nor to where there is room
  have hknown : ∀ v : Walk τ, ∀ lineage element,
      (v.score.edit v.scope.timeline Scene.flush).known lineage element =
        v.score.known lineage element :=
    fun v lineage element => Score.known_edit (Scene.shared_flush _) lineage element
  have hshared : ∀ v : Walk τ, v.Valid → v.score.Housed →
      (v.score.edit v.scope.timeline Scene.flush).shared = v.score.shared :=
    fun v hv hroom => hroom.shared_edit hv.timeline (Scene.shared_flush _)
  refine ⟨?_, ?_, ?_, ?_, ⟨[], fun e he => (List.not_mem_nil he).elim, ?_, ?_⟩, fun key _ => ?_, ?_⟩
  · rw [Score.length_timelines_edit]
    exact Nat.le_refl _
  · rw [Score.length_timelines_edit, Score.length_timelines_edit, Correspondence.counterpart]
    exact (congrArg (u.score.timelines.length + ·) (Nat.sub_self _)).symm
  · intro id hge hlt
    rw [Score.length_timelines_edit] at hlt
    exact absurd hlt (Nat.not_lt.2 hge)
  · intro lineage element hcovers
    obtain ⟨hsame, hremembers, hagree⟩ := hshares lineage element hcovers
    refine ⟨?_, ?_, ?_⟩
    · rw [hshared w hw hroom, hshared u hu hroom', hsame]
    · rw [hshared w hw hroom]
      exact hremembers
    · rw [hknown, hknown]
      exact hagree
  · rw [Score.order_edit, List.append_nil]
    rfl
  · rw [Score.order_edit, List.map_nil, List.append_nil]
    rfl
  · rw [hshared w hw hroom]
    rfl
  · intro lineage element p _
    rw [hknown]
    rfl

/-- Scopes that are entered from walks that are alike correspond, as far as the walks know the
same. -/
theorem corresponds_enter_apart (hx : ¬x.Whole) (hw : w.Valid) (hu : u.Valid) (h : w.Alike u)
    (hroom : w.score.Housed) (hroom' : u.score.Housed) (options : Option (Options τ))
    {element : ElementId} (hcovers : x.Covers (w.timeline.lineage, element))
    (hshares : ∀ lineage element, x.Covers (lineage, element) →
      w.score.Shares x u.score lineage element) :
    (w.enter options element).Corresponds (.apart x w u) (u.enter options element) := by
  have hflush : (w.score.edit w.scope.timeline Scene.flush).Corresponds (.apart x w u)
      (u.score.edit u.scope.timeline Scene.flush) :=
    corresponds_flush_apart hw hu hroom hroom' hshares
  have htime : u.currentTime = w.currentTime := Timeline.currentTime_eq_of_skeleton_eq h.skeleton
  refine corresponds_enter_of_score hw ?_ (Nat.le_refl _) ?_ h.previous h.timings
    (fun _ _ => trivial) h.params ⟨[], ?_, ?_⟩ fun hwhole => absurd hwhole hx
  · rw [enter_score, enter_score]
    show (w.score.fork _ _ _).2.Corresponds _ (u.score.fork _ _ _).2
    have hline : (u.score.timeline u.scope.timeline).lineage =
        (w.score.timeline w.scope.timeline).lineage := h.lineage_eq
    rw [Score.fork_eq, Score.fork_eq, Score.lineage_edit_flush hw.timeline,
      Score.lineage_edit_flush hu.timeline, hline]
    -- both new timelines begin at the same time
    have hstart : u.score.forkTime u.scope.timeline none =
        w.score.forkTime w.scope.timeline none := htime
    rw [hstart]
    exact hflush.enter hcovers _
  · exact (congrArg (u.score.timelines.length + ·) (Nat.sub_self _)).symm
  · exact (List.append_nil _).symm
  · exact (List.append_nil _).symm

theorem contains_enter_self (hw : w.Valid) (options : Option (Options τ)) (element : ElementId) :
    (w.enter options element).score.shared.contains (w.timeline.lineage, element) = true := by
  rw [enter_score]
  show (w.score.fork _ _ _).2.shared.contains _ = true
  rw [Score.fork_eq, Score.contains_enter, Score.lineage_edit_flush hw.timeline]
  exact Bool.or_eq_true_iff.2 (.inl (decide_eq_true rfl))

/-- No time is moved. -/
theorem Corresponds.timeline_eq_of_apart {inner inner' : Walk τ}
    (h : inner.Corresponds (.apart x w u) inner') : inner'.timeline = inner.timeline :=
  h.timeline_eq.trans (Timeline.moved_eq_self (fun _ => rfl) inner.timeline)

/-! ### Blocks -/

/-- What corresponding scopes have registered has the same instructions. -/
theorem Corresponds.emitted_registered {inner inner' : Walk τ}
    (h : inner.Corresponds (.apart x w u) inner') :
    inner'.score.emitted (u.registered inner') = inner.score.emitted (w.registered inner) := by
  obtain ⟨entries, hadmits, horder, horder'⟩ := h.score.order
  -- what has been listed since is the part of the list in which both runs agree
  have hblock : w.registered inner = entries := by
    rw [registered, horder]
    exact List.drop_left
  have hblock' : u.registered inner' = entries.map (Correspondence.apart x w u).entry := by
    rw [registered, horder']
    exact List.drop_left
  have hmoved : ∀ i : Instruction τ,
      i.moved (Correspondence.apart x w u).translation.time = i := fun _ => rfl
  rw [hblock, hblock', h.score.emitted_eq hadmits, List.map_congr_left fun i _ => hmoved i,
    List.map_id']

/-- The timelines of a scope concern what it was entered for, and were entered since. -/
theorem Corresponds.mem_registered {inner inner' : Walk τ}
    (h : inner.Corresponds (.apart x w u) inner') {id : TimelineId}
    (hid : .timeline id ∈ w.registered inner) :
    w.score.timelines.length ≤ id ∧ id < inner.score.timelines.length ∧
      x.Covers (inner.score.cell id) := by
  obtain ⟨entries, hadmits, horder, -⟩ := h.score.order
  rw [registered, horder] at hid
  have hmem : .timeline id ∈ entries := by
    rw [← @List.drop_left _ (Correspondence.apart x w u).base.score.order entries]
    exact hid
  obtain ⟨hge, hlt⟩ := hadmits _ hmem
  exact ⟨hge, hlt, (h.score.timeline id hge hlt).2.covered⟩

/-- A block whose timelines are settled shows in every score that has these timelines what the
corresponding block shows. -/
theorem Corresponds.emitted_eq {inner inner' : Walk τ}
    (h : inner.Corresponds (.apart x w u) inner')
    (hsettled : ∀ id, .timeline id ∈ w.registered inner → (inner.score.timeline id).Settled)
    {s : Score τ} (hs : ∀ id, w.score.timelines.length ≤ id →
      id < inner.score.timelines.length → s.timeline id = inner.score.timeline id) :
    s.emitted (w.registered inner) = inner'.score.emitted (u.registered inner') := by
  rw [h.emitted_registered]
  refine Score.emitted_congr fun id hid => ⟨?_, hsettled id hid⟩
  obtain ⟨hge, hlt, -⟩ := h.mem_registered hid
  exact hs id hge hlt

end Walk

end Choreography
