/-
Choreography/Proofs/Correspondence/Score.lean

Scores of two runs side by side.

A `Correspondence` says from which walks two runs have started and how they differ.  What
was entered since has a `counterpart` in the other run, under a handle that counts from the
other beginning.  Scores correspond if the timelines that were entered since do, if what is
known of the elements agrees as far as the extent goes, and if the same was listed since
(`Score.Corresponds`).  Then counterparts have the same instructions (`emitted_eq`).

Operations on timelines that were entered since keep scores corresponding.
-/
import Choreography.Proofs.Correspondence
import Choreography.Proofs.Effect

namespace Choreography

variable {τ : Type} [Quantity τ]

/-- Two runs side by side: where they started, and how they differ. -/
structure Correspondence (τ : Type) [Quantity τ] where
  translation : Translation τ
  extent : Extent
  base : Walk τ
  base' : Walk τ

namespace Correspondence

/-- The handle in the other run of a timeline that was entered since the beginning. -/
def counterpart (c : Correspondence τ) (id : TimelineId) : TimelineId :=
  c.base'.score.timelines.length + (id - c.base.score.timelines.length)

/-- What the other run lists for what was listed since the beginning. -/
def entry (c : Correspondence τ) : Entry τ → Entry τ
  | .timeline id => .timeline (c.counterpart id)
  | .placed p => .placed (p.moved c.translation.time)

/-- An entry that has a counterpart in the other run.  Folding a delay into keyframes would
show where the times have been moved. -/
def Admits (c : Correspondence τ) (s : Score τ) : Entry τ → Prop
  | .timeline id => c.base.score.timelines.length ≤ id ∧ id < s.timelines.length
  | .placed p => c.translation.still ∨ p.stretch = false

variable {c : Correspondence τ}

theorem counterpart_inj {i j : TimelineId} (hi : c.base.score.timelines.length ≤ i)
    (hj : c.base.score.timelines.length ≤ j) : c.counterpart i = c.counterpart j ↔ i = j :=
  Nat.add_left_cancel_iff.trans (tsub_left_inj hi hj)

theorem counterpart_succ {i : TimelineId} (hi : c.base.score.timelines.length ≤ i) :
    c.counterpart (i + 1) = c.counterpart i + 1 :=
  congrArg (c.base'.score.timelines.length + ·) (Nat.sub_add_comm hi)

/-- Counterparts are in the same order. -/
theorem counterpart_lt {i j : TimelineId} (hi : c.base.score.timelines.length ≤ i) (hij : i < j) :
    c.counterpart i < c.counterpart j :=
  Nat.add_lt_add_left (Nat.sub_lt_sub_right hi hij) _

/-- An entry keeps its counterpart while timelines are added. -/
theorem Admits.mono {s s' : Score τ} {e : Entry τ} (h : c.Admits s e)
    (hlength : s.timelines.length ≤ s'.timelines.length) : c.Admits s' e := by
  cases e with
  | timeline id => exact ⟨h.1, Nat.lt_of_lt_of_le h.2 hlength⟩
  | placed p => exact h

end Correspondence

/-- Between two scores nothing has changed but what is concerned. -/
structure Extent.Spares (x : Extent) (s s' : Score τ) : Prop where
  cells : ∀ key, ¬x.Covers key → s'.shared.get? key = s.shared.get? key
  names : ∀ lineage element p, ¬x.Names p →
    (s'.known lineage element).get? p = (s.known lineage element).get? p

omit [Quantity τ] in
theorem Extent.Spares.refl (x : Extent) (s : Score τ) : x.Spares s s :=
  ⟨fun _ _ => rfl, fun _ _ _ _ => rfl⟩

omit [Quantity τ] in
theorem Extent.Spares.trans {x : Extent} {s s₁ s₂ : Score τ} (h : x.Spares s s₁)
    (h' : x.Spares s₁ s₂) : x.Spares s s₂ where
  cells key hkey := (h'.cells key hkey).trans (h.cells key hkey)
  names lineage element p hp := (h'.names lineage element p hp).trans (h.names lineage element p hp)

namespace Score

/-- The instructions of entries, as far as they have anything to show. -/
def emitted (s : Score τ) (entries : List (Entry τ)) : List (Instruction τ) :=
  (entries.filter s.containsAnimation).map s.instruction

theorem emitted_append (s : Score τ) (xs ys : List (Entry τ)) :
    s.emitted (xs ++ ys) = s.emitted xs ++ s.emitted ys := by
  rw [emitted, List.filter_append, List.map_append]
  rfl

theorem emitted_flatten (s : Score τ) (blocks : List (List (Entry τ))) :
    s.emitted blocks.flatten = (blocks.map s.emitted).flatten := by
  induction blocks with
  | nil => rfl
  | cons block blocks ih =>
    rw [List.flatten_cons, emitted_append, ih, List.map_cons, List.flatten_cons]

/-- Two scores have the same room for what is known of an element, and agree on it. -/
structure Shares (x : Extent) (s s' : Score τ) (lineage : Nat) (element : ElementId) : Prop where
  contains : s'.shared.contains (lineage, element) = s.shared.contains (lineage, element)
  /-- A timeline that is entered then has a memory of its own. -/
  remembers : x.Exact ∨ s.shared.contains (lineage, element) = true
  agree : x.Agree (s.known lineage element) (s'.known lineage element)

/-- The scores of two runs correspond. -/
structure Corresponds (c : Correspondence τ) (s s' : Score τ) : Prop where
  length_le : c.base.score.timelines.length ≤ s.timelines.length
  length_eq : s'.timelines.length = c.counterpart s.timelines.length
  timeline : ∀ id, c.base.score.timelines.length ≤ id → id < s.timelines.length →
    s'.timeline (c.counterpart id) = (s.timeline id).moved c.translation.time ∧
      (s.timeline id).Within c.extent
  shares : ∀ lineage element, c.extent.Covers (lineage, element) →
    s.Shares c.extent s' lineage element
  order : ∃ entries, (∀ e ∈ entries, c.Admits s e) ∧ s.order = c.base.score.order ++ entries ∧
    s'.order = c.base'.score.order ++ entries.map c.entry
  spares : c.extent.Spares c.base.score s

section Corresponds

variable {c : Correspondence τ} {s s' : Score τ}

theorem contains_put (s : Score τ) (id : TimelineId) (scene : Scene τ) (key : Nat × ElementId) :
    (s.put id scene).shared.contains key =
      (decide (key = ((s.timeline id).lineage, (s.timeline id).element)) ||
        s.shared.contains key) := by
  rw [← OrderedMap.get?_isSome, ← OrderedMap.get?_isSome, put, OrderedMap.get?_insert]
  split <;> simp [*]

theorem contains_enter (s : Score τ) (lineage : Nat) (element : ElementId) (start : τ)
    (key : Nat × ElementId) :
    (s.enter lineage element start).2.shared.contains key =
      (decide (key = (lineage, element)) || s.shared.contains key) := by
  by_cases h : s.shared.contains (lineage, element)
  · simp only [enter, h, Bool.not_true, Bool.false_eq_true, if_false]
    by_cases hkey : key = (lineage, element)
    · simp [hkey, h]
    · simp [hkey]
  · simp only [enter, h, Bool.not_false, if_true]
    rw [← OrderedMap.get?_isSome, ← OrderedMap.get?_isSome, OrderedMap.get?_insert]
    split <;> simp [*]

/-- A timeline that was entered since, with what is known of its element. -/
theorem Corresponds.scene (h : s.Corresponds c s') {id : TimelineId}
    (hid : c.base.score.timelines.length ≤ id) (hlt : id < s.timelines.length) :
    (s.scene id).Corresponds c.translation c.extent (s'.scene (c.counterpart id)) := by
  obtain ⟨htimeline, hwithin⟩ := h.timeline id hid hlt
  refine ⟨htimeline, ?_, hwithin⟩
  have hshares := (h.shares _ _ hwithin.covered).agree
  show c.extent.Agree _ (s'.known (s'.timeline (c.counterpart id)).lineage _)
  rw [htimeline]
  exact hshares

/-! ### Editing -/

/-- A change of a timeline that was entered since. -/
theorem Corresponds.edit (h : s.Corresponds c s') {id : TimelineId}
    (hid : c.base.score.timelines.length ≤ id) (hlt : id < s.timelines.length)
    {f g : Scene τ → Scene τ}
    (hf : Scene.Keeps c.translation c.extent (s.scene id) (f (s.scene id))
      (g (s'.scene (c.counterpart id)))) :
    (s.edit id f).Corresponds c (s'.edit (c.counterpart id) g) := by
  obtain ⟨htimeline, hwithin⟩ := h.timeline id hid hlt
  -- both scenes are put back for the same element of the same lineage
  have hkey : ((s'.timeline (c.counterpart id)).lineage, (s'.timeline (c.counterpart id)).element) =
      ((s.timeline id).lineage, (s.timeline id).element) := by
    rw [htimeline]
    rfl
  have hlt' : c.counterpart id < s'.timelines.length := by
    rw [h.length_eq]
    exact Correspondence.counterpart_lt hid hlt
  refine ⟨?_, ?_, ?_, ?_, ?_, ?_⟩
  · rw [length_timelines_edit]
    exact h.length_le
  · rw [length_timelines_edit, length_timelines_edit]
    exact h.length_eq
  · intro j hj hjlt
    rw [length_timelines_edit] at hjlt
    -- the other timelines stay, and their counterparts are others, too
    by_cases hij : id = j
    · subst hij
      rw [timeline_edit_self f hlt, timeline_edit_self g hlt']
      exact ⟨hf.corresponds.timeline, hf.corresponds.within⟩
    · have hij' : c.counterpart id ≠ c.counterpart j :=
        fun e => hij ((Correspondence.counterpart_inj hid hj).1 e)
      rw [timeline_edit_of_ne f hij, timeline_edit_of_ne g hij']
      exact h.timeline j hj hjlt
  · intro lineage element hcovers
    have hold := h.shares lineage element hcovers
    refine ⟨?_, ?_, ?_⟩
    · rw [Score.edit, Score.edit, contains_put, contains_put, hkey, hold.contains]
    · rw [Score.edit, contains_put]
      exact hold.remembers.imp_right fun hc => by rw [hc, Bool.or_true]
    · rw [Score.edit, Score.edit, known_put, known_put, hkey]
      split
      · exact hf.corresponds.shared
      · exact hold.agree
  · obtain ⟨entries, hadmits, horder, horder'⟩ := h.order
    exact ⟨entries, fun e he => (hadmits e he).mono (by rw [length_timelines_edit]), horder,
      horder'⟩
  · refine h.spares.trans ⟨fun key hkey' => ?_, fun lineage element p hp => ?_⟩
    · -- what is not concerned was not in the cell that was changed
      rw [Score.edit, put, OrderedMap.get?_insert, if_neg]
      rintro rfl
      exact hkey' hwithin.covered
    · rw [Score.edit, known_put]
      split
      · rename_i he
        obtain ⟨rfl, rfl⟩ := Prod.mk.inj he
        exact hf.spared p hp
      · rfl

/-- Taking note of what another timeline wrote, both of which were entered since. -/
theorem Corresponds.merge (h : s.Corresponds c s') {into source : TimelineId}
    (hinto : c.base.score.timelines.length ≤ into) (hlt : into < s.timelines.length)
    (hsource : c.base.score.timelines.length ≤ source) (hslt : source < s.timelines.length) :
    (s.merge into source).Corresponds c
      (s'.merge (c.counterpart into) (c.counterpart source)) := by
  obtain ⟨htimeline, hwithin⟩ := h.timeline source hsource hslt
  unfold Score.merge
  -- a timeline is not merged into itself, nor is its counterpart
  by_cases he : into = source
  · subst he
    rw [if_pos rfl, if_pos rfl]
    exact h
  · have he' : c.counterpart into ≠ c.counterpart source :=
      fun e => he ((Correspondence.counterpart_inj hinto hsource).1 e)
    rw [if_neg he, if_neg he', htimeline]
    exact h.edit hinto hlt ((h.scene hinto hlt).merge hwithin.summary)

/-! ### Entering -/

/-- Entering a timeline for an element that is concerned. -/
theorem Corresponds.enter (h : s.Corresponds c s') {lineage : Nat} {element : ElementId}
    (hcovers : c.extent.Covers (lineage, element)) (start : τ) :
    (s.enter lineage element start).2.Corresponds c
      (s'.enter lineage element (c.translation.time start)).2 := by
  have hshares := h.shares lineage element hcovers
  refine ⟨?_, ?_, ?_, ?_, ?_, ?_⟩
  · rw [length_timelines_enter]
    exact Nat.le_succ_of_le h.length_le
  · rw [length_timelines_enter, length_timelines_enter, h.length_eq,
      Correspondence.counterpart_succ h.length_le]
  · intro id hid hlt
    rw [length_timelines_enter] at hlt
    -- an old timeline, or the one that was entered
    rcases Nat.lt_succ_iff_lt_or_eq.1 hlt with hlt | rfl
    · have hlt' : c.counterpart id < s'.timelines.length := by
        rw [h.length_eq]
        exact Correspondence.counterpart_lt hid hlt
      rw [timeline_enter_of_lt _ _ _ hlt, timeline_enter_of_lt _ _ _ hlt']
      exact h.timeline id hid hlt
    · rw [← h.length_eq, timeline_enter_self, timeline_enter_self, hshares.contains]
      refine ⟨rfl, hcovers, ?_, ?_, fun p hp => by cases hp⟩
      · exact hshares.remembers.imp_right fun hc => by rw [hc]; rfl
      · intro m hm p hp
        simp only [Timeline.begin, Option.ite_none_right_eq_some, Option.some.injEq] at hm
        rw [← hm.2] at hp
        cases hp
  · intro lineage' element' hcovers'
    have hold := h.shares lineage' element' hcovers'
    refine ⟨?_, ?_, ?_⟩
    · rw [contains_enter, contains_enter, hold.contains]
    · rw [contains_enter]
      exact hold.remembers.imp_right fun hc => by rw [hc, Bool.or_true]
    · rw [known_enter, known_enter]
      exact hold.agree
  · obtain ⟨entries, hadmits, horder, horder'⟩ := h.order
    -- the new entry is listed last in both runs
    refine ⟨entries ++ [.timeline s.timelines.length], ?_, ?_, ?_⟩
    · rw [List.forall_mem_append, List.forall_mem_singleton]
      refine ⟨fun e he => (hadmits e he).mono ?_, h.length_le, ?_⟩
      · rw [length_timelines_enter]
        exact Nat.le_succ _
      · rw [length_timelines_enter]
        exact Nat.lt_succ_self _
    · rw [order_enter, horder, List.append_assoc]
    · rw [order_enter, horder', List.append_assoc, List.map_append, h.length_eq]
      rfl
  · refine h.spares.trans ⟨fun key hkey => ?_, fun lineage' element' p _ => by rw [known_enter]⟩
    have hne : key ≠ (lineage, element) := fun e => hkey (e ▸ hcovers)
    simp only [Score.enter]
    split
    · rw [OrderedMap.get?_insert, if_neg hne]
    · rfl

theorem lineage_edit_flush {s : Score τ} {id : TimelineId} (h : id < s.timelines.length) :
    ((s.edit id Scene.flush).timeline id).lineage = (s.timeline id).lineage := by
  rw [timeline_edit_self _ h]
  exact congrArg Skeleton.lineage (Scene.skeleton_flush (s.scene id))

/-- Forking a timeline that was entered since. -/
theorem Corresponds.fork (h : s.Corresponds c s') {id : TimelineId}
    (hid : c.base.score.timelines.length ≤ id) (hlt : id < s.timelines.length)
    {element : ElementId} (hcovers : c.extent.Covers ((s.timeline id).lineage, element))
    {at? at?' : Option τ}
    (hat : s'.forkTime (c.counterpart id) at?' = c.translation.time (s.forkTime id at?)) :
    (s.fork id element at?).2.Corresponds c (s'.fork (c.counterpart id) element at?').2 := by
  -- a fork flushes first, and then enters a timeline of the same lineage
  have hflush := h.edit hid hlt (Scene.carried_flush (h.scene hid hlt))
  have hlt' : c.counterpart id < s'.timelines.length := by
    rw [h.length_eq]
    exact Correspondence.counterpart_lt hid hlt
  rw [fork_eq, fork_eq, lineage_edit_flush hlt, lineage_edit_flush hlt', hat,
    (h.timeline id hid hlt).1]
  exact hflush.enter hcovers _

/-- The same instruction is placed in both runs. -/
theorem Corresponds.place (h : s.Corresponds c s') {p : Placement τ}
    (hp : c.translation.still ∨ p.stretch = false) :
    (s.place p).Corresponds c (s'.place (p.moved c.translation.time)) := by
  obtain ⟨entries, hadmits, horder, horder'⟩ := h.order
  refine ⟨h.length_le, h.length_eq, h.timeline, fun lineage element hcovers => ?_, ?_,
    ⟨h.spares.cells, h.spares.names⟩⟩
  · obtain ⟨hcontains, hremembers, hagree⟩ := h.shares lineage element hcovers
    exact ⟨hcontains, hremembers, hagree⟩
  refine ⟨entries ++ [.placed p], ?_, ?_, ?_⟩
  · rw [List.forall_mem_append, List.forall_mem_singleton]
    exact ⟨hadmits, hp⟩
  · show s.order ++ [.placed p] = _
    rw [horder, List.append_assoc]
  · show s'.order ++ [.placed _] = _
    rw [horder', List.append_assoc, List.map_append]
    rfl

/-! ### What is listed -/

/-- What is placed at a moved time shows the same, later or earlier. -/
theorem toInstruction_moved {T : Translation τ} {p : Placement τ}
    (hp : T.still ∨ p.stretch = false) :
    (p.moved T.time).toInstruction = p.toInstruction.moved T.time := by
  -- only a delay that is folded into keyframes could tell
  rcases hp with hstill | hstretch
  · simp only [Placement.moved, Instruction.moved, T.time_of_still hstill]
  · simp only [Placement.toInstruction, Placement.isStretched, Placement.moved, hstretch,
      Bool.false_and, Bool.false_eq_true, if_false]
    rfl

/-- Counterparts have the same instruction but for the time. -/
theorem Corresponds.instruction_eq (h : s.Corresponds c s') {e : Entry τ} (he : c.Admits s e) :
    s'.instruction (c.entry e) = (s.instruction e).moved c.translation.time := by
  cases e with
  | timeline id => exact (h.scene he.1 he.2).toInstruction_eq
  | placed p => exact toInstruction_moved he

/-- Counterparts show something, or neither does. -/
theorem Corresponds.containsAnimation_eq (h : s.Corresponds c s') {e : Entry τ}
    (he : c.Admits s e) : s'.containsAnimation (c.entry e) = s.containsAnimation e := by
  cases e with
  | timeline id =>
    show (s'.timeline (c.counterpart id)).containsAnimation = _
    rw [(h.timeline id he.1 he.2).1]
    rfl
  | placed p => rfl

/-- The counterparts of entries show something if the entries do. -/
theorem Corresponds.filter_eq (h : s.Corresponds c s') {entries : List (Entry τ)}
    (hadmits : ∀ e ∈ entries, c.Admits s e) :
    (entries.map c.entry).filter s'.containsAnimation =
      (entries.filter s.containsAnimation).map c.entry := by
  rw [List.filter_map]
  congr 1
  exact List.filter_congr fun e he => h.containsAnimation_eq (hadmits e he)

/-- The counterparts of entries have the same instructions. -/
theorem Corresponds.map_instruction_eq (h : s.Corresponds c s') {entries : List (Entry τ)}
    (hadmits : ∀ e ∈ entries, c.Admits s e) :
    (entries.map c.entry).map s'.instruction =
      (entries.map s.instruction).map (Instruction.moved c.translation.time) := by
  rw [List.map_map, List.map_map]
  exact List.map_congr_left fun e he => h.instruction_eq (hadmits e he)

/-- The instructions of blocks that correspond are the same but for the times. -/
theorem Corresponds.emitted_eq (h : s.Corresponds c s') {entries : List (Entry τ)}
    (hadmits : ∀ e ∈ entries, c.Admits s e) :
    s'.emitted (entries.map c.entry) =
      (s.emitted entries).map (Instruction.moved c.translation.time) := by
  rw [emitted, h.filter_eq hadmits]
  exact h.map_instruction_eq fun e he => hadmits e (List.mem_filter.1 he).1

end Corresponds

end Score

end Choreography
