/-
Choreography/Proofs/Pruning/Score.lean

Scores that differ in timelines on which nothing happens.

Two runs may enter different numbers of timelines and give them different handles.  A
`Pairing` says which timelines of the two belong together, and which ones are left over in one
run or in the other.  Scores are paired (`Score.Paired`) if timelines that belong together are
the same, timelines that are left over are as they were when they were entered, the same is
known of the elements, and what is listed is the same but for what is left over.

What happens to timelines that belong together keeps scores paired, and so does whatever one
run alone does to a timeline that is left over, as long as that stays untouched.  A pairing only
grows (`Pairing.Extends`).  What paired scores have to show is paired, entry by entry
(`Paired.animated`).
-/
import Choreography.Proofs.Block

namespace Choreography

variable {τ : Type} [Quantity τ]

/-! ### Pairings -/

/-- Which timelines of two runs belong together, and which are left over. -/
structure Pairing where
  pair : TimelineId → TimelineId → Prop
  /-- Timelines that only the first run has. -/
  spare : TimelineId → Prop
  /-- Timelines that only the second run has. -/
  extra : TimelineId → Prop

namespace Pairing

/-- The pairing as the second run sees it. -/
def swap (ρ : Pairing) : Pairing := ⟨fun j i => ρ.pair i j, ρ.extra, ρ.spare⟩

/-- One more pair of timelines. -/
def join (ρ : Pairing) (i j : TimelineId) : Pairing :=
  { ρ with pair := fun i' j' => ρ.pair i' j' ∨ i' = i ∧ j' = j }

/-- One more timeline that only the first run has. -/
def withSpare (ρ : Pairing) (i : TimelineId) : Pairing :=
  { ρ with spare := fun i' => ρ.spare i' ∨ i' = i }

/-- Everything has stayed where it was. -/
structure Extends (ρ' ρ : Pairing) : Prop where
  pair : ∀ {i j}, ρ.pair i j → ρ'.pair i j
  spare : ∀ {i}, ρ.spare i → ρ'.spare i
  extra : ∀ {j}, ρ.extra j → ρ'.extra j

variable {ρ ρ₁ ρ₂ : Pairing}

theorem Extends.refl (ρ : Pairing) : ρ.Extends ρ := ⟨id, id, id⟩

/-- A pairing is extended one step after another. -/
theorem Extends.trans (h : ρ₂.Extends ρ₁) (h' : ρ₁.Extends ρ) : ρ₂.Extends ρ :=
  ⟨h.pair ∘ h'.pair, h.spare ∘ h'.spare, h.extra ∘ h'.extra⟩

theorem Extends.swap (h : ρ₁.Extends ρ) : ρ₁.swap.Extends ρ.swap := ⟨h.pair, h.extra, h.spare⟩

/-- One more pair extends a pairing. -/
theorem extends_join (ρ : Pairing) (i j : TimelineId) : (ρ.join i j).Extends ρ := ⟨.inl, id, id⟩

theorem extends_withSpare (ρ : Pairing) (i : TimelineId) : (ρ.withSpare i).Extends ρ :=
  ⟨id, .inl, id⟩

/-- Entries that belong together. -/
inductive Entries (ρ : Pairing) : Entry τ → Entry τ → Prop
  | timeline {i j : TimelineId} : ρ.pair i j → Entries ρ (.timeline i) (.timeline j)
  | placed (p : Placement τ) : Entries ρ (.placed p) (.placed p)

/-- The same is listed, but for what is left over. -/
inductive Lists (ρ : Pairing) : List (Entry τ) → List (Entry τ) → Prop
  | nil : Lists ρ [] []
  | both {es es' : List (Entry τ)} {e e' : Entry τ} :
      Lists ρ es es' → ρ.Entries e e' → Lists ρ (es ++ [e]) (es' ++ [e'])
  | spare {es es' : List (Entry τ)} {i : TimelineId} :
      Lists ρ es es' → ρ.spare i → Lists ρ (es ++ [.timeline i]) es'
  | extra {es es' : List (Entry τ)} {j : TimelineId} :
      Lists ρ es es' → ρ.extra j → Lists ρ es (es' ++ [.timeline j])

omit [Quantity τ] in
theorem Extends.entries (h : ρ₁.Extends ρ) {e e' : Entry τ} (he : ρ.Entries e e') :
    ρ₁.Entries e e' := by
  cases he with
  | timeline hp => exact .timeline (h.pair hp)
  | placed p => exact .placed p

omit [Quantity τ] in
/-- Lists go on being the same but for what is left over. -/
theorem Lists.mono {es es' : List (Entry τ)} (h : ρ.Lists es es') (hρ : ρ₁.Extends ρ) :
    ρ₁.Lists es es' := by
  induction h with
  | nil => exact .nil
  | both _ he ih => exact .both ih (hρ.entries he)
  | spare _ hi ih => exact .spare ih (hρ.spare hi)
  | extra _ hj ih => exact .extra ih (hρ.extra hj)

omit [Quantity τ] in
theorem Entries.swap {e e' : Entry τ} (h : ρ.Entries e e') : ρ.swap.Entries e' e := by
  cases h with
  | timeline hp => exact .timeline hp
  | placed p => exact .placed p

omit [Quantity τ] in
theorem Lists.swap {es es' : List (Entry τ)} (h : ρ.Lists es es') : ρ.swap.Lists es' es := by
  induction h with
  | nil => exact .nil
  | both _ he ih => exact .both ih he.swap
  | spare _ hi ih => exact .extra ih hi
  | extra _ hj ih => exact .spare ih hj

end Pairing

/-! ### Timelines on which nothing happens -/

/-- A timeline as it is when it is entered. -/
def Timeline.Untouched (t : Timeline τ) : Prop :=
  ∃ lineage element start own, t = .begin lineage element start own

/-- Nothing to show is on a timeline on which nothing happens. -/
theorem Timeline.Untouched.not_containsAnimation {t : Timeline τ} (h : t.Untouched) :
    t.containsAnimation = false := by
  obtain ⟨lineage, element, start, own, rfl⟩ := h
  rfl

/-- There is nothing to take note of. -/
theorem Timeline.Untouched.merge {t : Timeline τ} (h : t.Untouched) (s : Scene τ) :
    s.merge t = s := by
  obtain ⟨lineage, element, start, own, rfl⟩ := h
  rfl

omit [Quantity τ] in
/-- Without anything to wait for it there is no keyframe to finish. -/
theorem Scene.flush_of_isEmpty {s : Scene τ} (h : s.timeline.pending.isEmpty = true) :
    s.flush = s :=
  if_pos h

namespace Score

/-- A change that changes nothing. -/
theorem edit_eq_self {s : Score τ} (hroom : s.Housed) {id : TimelineId}
    (hid : id < s.timelines.length) {f : Scene τ → Scene τ} (hf : f (s.scene id) = s.scene id) :
    s.edit id f = s := by
  have htimelines : s.timelines.set id (s.scene id).timeline = s.timelines := by
    show s.timelines.set id (s.timelines.getD id _) = s.timelines
    rw [List.getD_eq_getElem _ _ hid]
    exact List.set_getElem_self hid
  show ({ s with
    timelines := s.timelines.set id (f (s.scene id)).timeline
    shared := s.shared.insert (s.cell id) (f (s.scene id)).shared } : Score τ) = s
  rw [hf, hroom.insert_shared hid, htimelines]

/-- What is finished already need not be finished by a fork. -/
theorem fork_edit_flush {s : Score τ} (hroom : s.Housed) {id : TimelineId}
    (hid : id < s.timelines.length) (element : ElementId) (at? : Option τ) :
    (s.edit id Scene.flush).fork id element at? = s.fork id element at? := by
  have hlt : id < (s.edit id Scene.flush).timelines.length := by
    rwa [length_timelines_edit]
  have htwice : (s.edit id Scene.flush).edit id Scene.flush = s.edit id Scene.flush := by
    refine edit_eq_self (hroom.perform (.change id .flush)) hlt (Scene.flush_of_isEmpty ?_)
    show ((s.edit id Scene.flush).timeline id).pending.isEmpty = true
    rw [timeline_edit_self _ hid]
    exact Scene.pending_flush _
  have htime : (s.edit id Scene.flush).forkTime id at? = s.forkTime id at? := by
    cases at? <;> simp only [forkTime, currentTime_edit_flush]
  rw [fork_eq, fork_eq, htwice, htime]

/-! ### Scores side by side -/

/-- Scores that are the same but for timelines on which nothing happens. -/
structure Paired (ρ : Pairing) (s u : Score τ) : Prop where
  pair : ∀ {i j}, ρ.pair i j →
    i < s.timelines.length ∧ j < u.timelines.length ∧ u.timeline j = s.timeline i
  unique : ∀ {i j i' j'}, ρ.pair i j → ρ.pair i' j' → (i = i' ↔ j = j')
  spare : ∀ {i}, ρ.spare i →
    i < s.timelines.length ∧ (∀ j, ¬ρ.pair i j) ∧ (s.timeline i).Untouched
  extra : ∀ {j}, ρ.extra j →
    j < u.timelines.length ∧ (∀ i, ¬ρ.pair i j) ∧ (u.timeline j).Untouched
  shared : u.shared = s.shared
  listed : ρ.Lists s.order u.order

section Paired

variable {ρ : Pairing} {s u : Score τ} {i i' j j' : TimelineId}

theorem Paired.swap (h : s.Paired ρ u) : u.Paired ρ.swap s where
  pair hp := ⟨(h.pair hp).2.1, (h.pair hp).1, (h.pair hp).2.2.symm⟩
  unique hp hp' := (h.unique hp hp').symm
  spare hj := h.extra hj
  extra hi := h.spare hi
  shared := h.shared.symm
  listed := h.listed.swap

/-- Timelines that belong together, with what is known of their element. -/
theorem Paired.scene_eq (h : s.Paired ρ u) (hp : ρ.pair i j) : u.scene j = s.scene i := by
  simp only [scene, known, (h.pair hp).2.2, h.shared]

/-- The same happens to timelines that belong together. -/
theorem Paired.put (h : s.Paired ρ u) (hp : ρ.pair i j) (scene : Scene τ) :
    (s.put i scene).Paired ρ (u.put j scene) := by
  obtain ⟨hi, hj, htimeline⟩ := h.pair hp
  have hlength : ∀ (s : Score τ) id, (s.put id scene).timelines.length = s.timelines.length :=
    fun s id => List.length_set
  refine ⟨fun {i' j'} hp' => ?_, h.unique, fun {i'} hi' => ?_, fun {j'} hj' => ?_, ?_, h.listed⟩
  · obtain ⟨hi', hj', htimeline'⟩ := h.pair hp'
    -- the timeline that is asked for is the changed one in both runs, or in neither
    have hboth := h.unique hp hp'
    refine ⟨(hlength s i).symm ▸ hi', (hlength u j).symm ▸ hj', ?_⟩
    rw [timeline_put, timeline_put, htimeline']
    simp only [hi, hj, and_true, hboth]
  · obtain ⟨hlt, hnone, huntouched⟩ := h.spare hi'
    -- what is left over is not the timeline that is changed, for that has a partner
    have hne : i ≠ i' := fun e => hnone j (e ▸ hp)
    refine ⟨(hlength s i).symm ▸ hlt, hnone, ?_⟩
    rw [timeline_put, if_neg fun e => hne e.1]
    exact huntouched
  · obtain ⟨hlt, hnone, huntouched⟩ := h.extra hj'
    have hne : j ≠ j' := fun e => hnone i (e ▸ hp)
    refine ⟨(hlength u j).symm ▸ hlt, hnone, ?_⟩
    rw [timeline_put, if_neg fun e => hne e.1]
    exact huntouched
  · show u.shared.insert _ _ = s.shared.insert _ _
    rw [h.shared, htimeline]

/-- The same change is made to timelines that belong together. -/
theorem Paired.edit (h : s.Paired ρ u) (hp : ρ.pair i j) (f : Scene τ → Scene τ) :
    (s.edit i f).Paired ρ (u.edit j f) := by
  rw [Score.edit, Score.edit, h.scene_eq hp]
  exact h.put hp _

/-- Timelines that belong together are merged alike. -/
theorem Paired.merge (h : s.Paired ρ u) (hp : ρ.pair i j) (hp' : ρ.pair i' j') :
    (s.merge i i').Paired ρ (u.merge j j') := by
  have hboth := h.unique hp hp'
  unfold Score.merge
  -- a timeline is merged into itself in both runs, or in neither
  by_cases he : i = i'
  · rw [if_pos he, if_pos (hboth.1 he)]
    exact h
  · rw [if_neg he, if_neg fun he' => he (hboth.2 he'), (h.pair hp').2.2]
    exact h.edit hp _

/-- Nothing happens on a timeline that is left over, so there is nothing to take note of. -/
theorem merge_of_untouched (hroom : s.Housed) (hi : i < s.timelines.length)
    (h : (s.timeline i').Untouched) : s.merge i i' = s := by
  unfold Score.merge
  split
  · rfl
  · exact edit_eq_self hroom hi (h.merge _)

theorem Paired.place (h : s.Paired ρ u) (p : Placement τ) :
    (s.place p).Paired ρ (u.place p) where
  pair := h.pair
  unique := h.unique
  spare := h.spare
  extra := h.extra
  shared := h.shared
  listed := h.listed.both (.placed p)

/-! ### Entering -/

/-- Both runs enter a timeline. -/
theorem Paired.enter (h : s.Paired ρ u) (lineage : Nat) (element : ElementId) (start : τ) :
    (s.enter lineage element start).2.Paired
      (ρ.join s.timelines.length u.timelines.length) (u.enter lineage element start).2 := by
  have hlength : ∀ s : Score τ, (s.enter lineage element start).2.timelines.length =
      s.timelines.length + 1 := fun s => length_timelines_enter s lineage element start
  refine ⟨?_, ?_, fun {i'} hi' => ?_, fun {j'} hj' => ?_, ?_, ?_⟩
  · rintro i' j' (hp | ⟨rfl, rfl⟩)
    · obtain ⟨hi, hj, htimeline⟩ := h.pair hp
      rw [hlength, hlength, timeline_enter_of_lt _ _ _ hi, timeline_enter_of_lt _ _ _ hj]
      exact ⟨Nat.lt_succ_of_lt hi, Nat.lt_succ_of_lt hj, htimeline⟩
    · rw [hlength, hlength, timeline_enter_self, timeline_enter_self, h.shared]
      exact ⟨Nat.lt_succ_self _, Nat.lt_succ_self _, rfl⟩
  · -- the new pair has greater handles than all others
    rintro i j i' j' (hp | ⟨rfl, rfl⟩) (hp' | ⟨rfl, rfl⟩)
    · exact h.unique hp hp'
    · obtain ⟨hi, hj, -⟩ := h.pair hp
      exact iff_of_false (Nat.ne_of_lt hi) (Nat.ne_of_lt hj)
    · obtain ⟨hi, hj, -⟩ := h.pair hp'
      exact iff_of_false (Nat.ne_of_gt hi) (Nat.ne_of_gt hj)
    · exact iff_of_true rfl rfl
  · obtain ⟨hlt, hnone, huntouched⟩ := h.spare hi'
    rw [hlength, timeline_enter_of_lt _ _ _ hlt]
    refine ⟨Nat.lt_succ_of_lt hlt, ?_, huntouched⟩
    rintro j (hp | ⟨rfl, rfl⟩)
    · exact hnone j hp
    · exact Nat.lt_irrefl _ hlt
  · obtain ⟨hlt, hnone, huntouched⟩ := h.extra hj'
    rw [hlength, timeline_enter_of_lt _ _ _ hlt]
    refine ⟨Nat.lt_succ_of_lt hlt, ?_, huntouched⟩
    rintro i (hp | ⟨rfl, rfl⟩)
    · exact hnone i hp
    · exact Nat.lt_irrefl _ hlt
  · simp only [Score.enter, h.shared]
  · rw [order_enter, order_enter]
    exact (h.listed.mono (ρ.extends_join _ _)).both (.timeline (.inr ⟨rfl, rfl⟩))

/-- Only the first run enters a timeline. -/
theorem Paired.enter_spare (h : s.Paired ρ u) {lineage : Nat} {element : ElementId}
    (hroom : s.shared.contains (lineage, element) = true) (start : τ) :
    (s.enter lineage element start).2.Paired (ρ.withSpare s.timelines.length) u := by
  have hlength := length_timelines_enter s lineage element start
  refine ⟨fun {i' j'} hp => ?_, h.unique, ?_, h.extra, ?_, ?_⟩
  · obtain ⟨hi, hj, htimeline⟩ := h.pair hp
    rw [hlength, timeline_enter_of_lt _ _ _ hi]
    exact ⟨Nat.lt_succ_of_lt hi, hj, htimeline⟩
  · rintro i' (hi' | rfl)
    · obtain ⟨hlt, hnone, huntouched⟩ := h.spare hi'
      rw [hlength, timeline_enter_of_lt _ _ _ hlt]
      exact ⟨Nat.lt_succ_of_lt hlt, hnone, huntouched⟩
    · rw [hlength, timeline_enter_self]
      exact ⟨Nat.lt_succ_self _, fun j hp => Nat.lt_irrefl _ (h.pair hp).1, _, _, _, _, rfl⟩
  · simp only [Score.enter, hroom, h.shared, Bool.not_true, Bool.false_eq_true, if_false]
  · rw [order_enter]
    exact (h.listed.mono (ρ.extends_withSpare _)).spare (.inr rfl)

/-- Both runs fork timelines that belong together. -/
theorem Paired.fork (h : s.Paired ρ u) (hp : ρ.pair i j) (element : ElementId) (at? : Option τ) :
    (s.fork i element at?).2.Paired (ρ.join s.timelines.length u.timelines.length)
      (u.fork j element at?).2 := by
  have hflush := h.edit hp Scene.flush
  have htime : u.forkTime j at? = s.forkTime i at? := by
    cases at? <;> simp only [forkTime, (h.pair hp).2.2]
  -- the fork goes on in the lineage of the flushed timeline
  have henter := hflush.enter ((s.edit i Scene.flush).timeline i).lineage element
    (s.forkTime i at?)
  rw [length_timelines_edit, length_timelines_edit] at henter
  rw [fork_eq, fork_eq, htime, (hflush.pair hp).2.2]
  exact henter

/-- Only the first run forks a timeline, and nothing waits there. -/
theorem Paired.fork_spare (h : s.Paired ρ u) (hroom : s.Housed) (hi : i < s.timelines.length)
    (hpending : (s.timeline i).pending.isEmpty = true) (at? : Option τ) :
    (s.fork i (s.timeline i).element at?).2.Paired (ρ.withSpare s.timelines.length) u := by
  rw [fork_eq, edit_eq_self hroom hi (Scene.flush_of_isEmpty hpending)]
  exact h.enter_spare (hroom i hi) _

/-- The first run does something to a timeline that is left over. -/
theorem Paired.edit_spare (h : s.Paired ρ u) (hroom : s.Housed) (hi : ρ.spare i)
    {f : Scene τ → Scene τ} (hf : (f (s.scene i)).timeline.Untouched)
    (hshared : (f (s.scene i)).shared = (s.scene i).shared) : (s.edit i f).Paired ρ u := by
  obtain ⟨hlt, hnone, huntouched⟩ := h.spare hi
  -- what is known of the element is put back
  have hsame : (s.edit i f).shared = s.shared := by
    have hself := congrArg Score.shared (edit_eq_self hroom hlt (f := id) rfl)
    refine Eq.trans ?_ hself
    show s.shared.insert (s.cell i) (f (s.scene i)).shared = s.shared.insert (s.cell i) _
    rw [hshared]
    rfl
  refine ⟨fun {i' j'} hp => ?_, h.unique, fun {i'} hi' => ?_, h.extra, ?_, h.listed⟩
  · have hne : i ≠ i' := fun e => hnone j' (e ▸ hp)
    rw [length_timelines_edit, timeline_edit_of_ne f hne]
    exact h.pair hp
  · obtain ⟨hlt', hnone', huntouched'⟩ := h.spare hi'
    rw [length_timelines_edit]
    refine ⟨hlt', hnone', ?_⟩
    by_cases he : i = i'
    · subst he
      rw [timeline_edit_self f hlt]
      exact hf
    · rw [timeline_edit_of_ne f he]
      exact huntouched'
  · rw [hsame]
    exact h.shared

/-! ### What is listed -/

/-- Entries that belong together have something to show, or neither has. -/
theorem Paired.containsAnimation_eq (h : s.Paired ρ u) {e e' : Entry τ} (he : ρ.Entries e e') :
    u.containsAnimation e' = s.containsAnimation e := by
  cases he with
  | timeline hp => exact congrArg Timeline.containsAnimation (h.pair hp).2.2
  | placed p => rfl

theorem Paired.instruction_eq (h : s.Paired ρ u) {e e' : Entry τ} (he : ρ.Entries e e') :
    u.instruction e' = s.instruction e := by
  cases he with
  | timeline hp => exact congrArg Scene.toInstruction (h.scene_eq hp)
  | placed p => rfl

theorem Paired.element_eq (h : s.Paired ρ u) {e e' : Entry τ} (he : ρ.Entries e e') :
    u.element e' = s.element e := by
  cases he with
  | timeline hp => exact congrArg Timeline.element (h.pair hp).2.2
  | placed p => rfl

/-- What is left over has nothing to show, so what has something to show is paired. -/
theorem Paired.filter_containsAnimation (h : s.Paired ρ u) {es es' : List (Entry τ)}
    (hes : ρ.Lists es es') : List.Forall₂ ρ.Entries (es.filter s.containsAnimation)
      (es'.filter u.containsAnimation) := by
  -- on how the lists have come about: what is left over falls out on its side
  induction hes with
  | nil => exact .nil
  | both _ he ih =>
    rw [List.filter_append, List.filter_append]
    refine List.rel_append ih ?_
    rw [List.filter_cons, List.filter_cons, h.containsAnimation_eq he]
    split
    · exact .cons he .nil
    · exact .nil
  | spare _ hi ih =>
    have hnone : s.containsAnimation (.timeline _) = false :=
      (h.spare hi).2.2.not_containsAnimation
    rw [List.filter_append, List.filter_cons, hnone]
    simpa using ih
  | extra _ hj ih =>
    have hnone : u.containsAnimation (.timeline _) = false :=
      (h.extra hj).2.2.not_containsAnimation
    rw [List.filter_append, List.filter_cons, hnone]
    simpa using ih

/-- What the runs show is paired, entry by entry. -/
theorem Paired.animated (h : s.Paired ρ u) : List.Forall₂ ρ.Entries s.animated u.animated :=
  h.filter_containsAnimation h.listed

end Paired

end Score

end Choreography
