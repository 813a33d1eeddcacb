/-
Choreography/Proofs/Backfill.lean

When all keyframes of an instruction carry the same properties.

A write backfills a property that is new to the branch, so that the keyframes before it
show the property too.  Whether it is new is judged by what the branch knows.  A branch
also comes to know properties without writing them: it takes note of what others wrote
(merging), and the first timeline of an element knows whatever the other timelines of the
element write.  Such a property is never new to the branch again, so nothing backfills it.

`Score.Learns` is this second way of coming to know a property.  Whatever a timeline
holds was backfilled or learned (`Score.held_performAll`, by induction on the run), hence
the keyframes of its instruction differ at most in what it has learned
(`Score.uniform_instruction_iff`), and they do differ (`not_uniform_of_learned`).
-/
import Choreography.Animation.Build
import Choreography.Proofs.Finish
import Choreography.Proofs.Run
import Choreography.Proofs.Styles
import Choreography.Quantity.Exact

namespace Choreography

variable {τ : Type} [Quantity τ]

/-! ### Uniform instructions -/

/-- Whether every two keyframes carry the same properties. -/
def Instruction.Uniform (i : Instruction τ) : Prop :=
  ∀ k ∈ i.keyframes, ∀ k' ∈ i.keyframes, ∀ p ∈ k.styles.keys, p ∈ k'.styles.keys

instance (i : Instruction τ) : Decidable i.Uniform :=
  inferInstanceAs (Decidable (∀ k ∈ i.keyframes, ∀ k' ∈ i.keyframes, ∀ p ∈ k.styles.keys,
    p ∈ k'.styles.keys))

/-- Whether a property stands in all keyframes of a timeline or in none. -/
def Timeline.Even (t : Timeline τ) (p : String) : Prop :=
  (∀ k ∈ t.keyframes, p ∈ k.styles.keys) ∨ ∀ k ∈ t.keyframes, p ∉ k.styles.keys

/-- What is backfilled is everywhere, so only the other properties can make a difference. -/
theorem Scene.uniform_toInstruction_iff (s : Scene τ) :
    s.toInstruction.Uniform ↔ ∀ p, p ∉ s.timeline.backfill.keys → s.flush.timeline.Even p := by
  -- which properties the keyframes of the instruction carry, keyframe by keyframe
  have hcarry : ∀ (k : TimedKeyframe τ) p,
      p ∈ (s.flush.timeline.backfill.insertAll k.styles.entries).keys ↔
        p ∈ s.timeline.backfill.keys ∨ p ∈ k.styles.keys := by
    intro k p
    rw [OrderedMap.mem_keys_insertAll, backfill_flush]
    rfl
  have hkeyframe : ∀ k ∈ s.flush.timeline.keyframes, ∃ k' ∈ s.toInstruction.keyframes,
      k'.styles = s.flush.timeline.backfill.insertAll k.styles.entries :=
    fun k hk => mem_styles_toInstruction.2 ⟨k, hk, rfl⟩
  constructor
  · intro h p hp
    by_cases hsome : ∃ k ∈ s.flush.timeline.keyframes, p ∈ k.styles.keys
    · left
      intro k' hk'
      obtain ⟨k, hk, hpk⟩ := hsome
      obtain ⟨i, hi, hik⟩ := hkeyframe k hk
      obtain ⟨i', hi', hik'⟩ := hkeyframe k' hk'
      have hpi : p ∈ i'.styles.keys :=
        h i hi i' hi' p (by rw [hik]; exact (hcarry k p).2 (.inr hpk))
      rw [hik'] at hpi
      exact ((hcarry k' p).1 hpi).resolve_left hp
    · exact .inr fun k hk hpk => hsome ⟨k, hk, hpk⟩
  · intro h i hi i' hi' p hpi
    obtain ⟨k, hk, hik⟩ := mem_styles_toInstruction.1 ⟨i, hi, rfl⟩
    obtain ⟨k', hk', hik'⟩ := mem_styles_toInstruction.1 ⟨i', hi', rfl⟩
    rw [← hik] at hpi
    rw [← hik']
    rcases (hcarry k p).1 hpi with hb | hpk
    · exact (hcarry k' p).2 (.inl hb)
    · by_cases hb : p ∈ s.timeline.backfill.keys
      · exact (hcarry k' p).2 (.inl hb)
      · rcases h p hb with hall | hnone
        · exact (hcarry k' p).2 (.inr (hall k' hk'))
        · exact absurd hpk (hnone k hk)

/-! ### Writing backfills -/

namespace Scene

/-- A write makes a property known only if it backfills it. -/
theorem known_or_backfill_write {s : Scene τ} {property p : String} {value : StyleValue τ}
    (h : p ∈ (s.write property value).known.keys) :
    p ∈ s.known.keys ∨ p ∈ (s.write property value).timeline.backfill.keys := by
  rw [known_write] at h
  rcases OrderedMap.mem_keys_insert.1 h with rfl | h
  · -- the property that is written is backfilled unless it is known
    by_cases hk : s.known.contains p
    · exact .inl (OrderedMap.contains_iff_mem_keys.1 hk)
    · right
      have hk' : ¬(s.queue p value).known.contains p := hk
      simp only [write, backfill, if_neg hk']
      exact OrderedMap.mem_keys_insert.2 (.inl rfl)
  · exact .inl h

/-- Several writes make a property known only if one of them backfills it. -/
theorem known_or_backfill_setStyles {s : Scene τ} {entries : List (StyleEntry τ)}
    {easing : Option String} {params : Params τ} {p : String}
    (h : p ∈ (s.setStyles entries easing params).1.known.keys) :
    p ∈ s.known.keys ∨ p ∈ (s.setStyles entries easing params).1.timeline.backfill.keys := by
  -- what a write backfills stays, so each write can be looked at on its own
  have hall : ∀ (styles : List (String × StyleValue τ)) (s : Scene τ),
      p ∈ (s.writeAll params styles).1.known.keys →
        p ∈ s.known.keys ∨ p ∈ (s.writeAll params styles).1.timeline.backfill.keys := by
    intro styles
    induction styles with
    | nil => exact fun s h => .inl h
    | cons entry rest ih =>
      intro s h
      rcases ih _ h with h | h
      · rcases known_or_backfill_write h with h | h
        · exact .inl h
        · exact .inr ((grows_writeAll params rest _).backfill p h)
      · exact .inr h
  rcases hall _ _ h with h | h
  · rw [known_easePrevious] at h
    exact .inl h
  · exact .inr h

end Scene

/-! ### Learning -/

namespace Score

/-- Among the operations there is one, other than a write on the timeline, that has made
the branch of the timeline know the property. -/
def Learns (ops : List (Operation τ)) (id : TimelineId) (p : String) : Prop :=
  ∃ pre op post, ops = pre ++ op :: post ∧
    (∀ entries easing params, op ≠ .change id (.write entries easing params)) ∧
    id < (Score.empty.performAll pre).timelines.length ∧
    p ∉ ((Score.empty.performAll pre).scene id).known.keys ∧
    p ∈ (((Score.empty.performAll pre).perform op).scene id).known.keys

/-- What was learned stays learned. -/
theorem Learns.append {ops : List (Operation τ)} {id : TimelineId} {p : String}
    (h : Learns ops id p) (more : List (Operation τ)) : Learns (ops ++ more) id p := by
  obtain ⟨pre, op, post, rfl, hop⟩ := h
  exact ⟨pre, op, post ++ more, by simp, hop⟩

/-- A timeline that was just entered holds and knows nothing. -/
theorem entered_enter {s : Score τ} {lineage : Nat} {element : ElementId} {start : τ}
    {id : TimelineId} (hnew : s.timelines.length ≤ id)
    (hid : id < (s.enter lineage element start).2.timelines.length) (p : String) :
    ¬((s.enter lineage element start).2.scene id).Holds p ∧
      p ∉ ((s.enter lineage element start).2.scene id).known.keys := by
  rw [length_timelines_enter] at hid
  obtain rfl : id = s.timelines.length := Nat.le_antisymm (Nat.le_of_lt_succ hid) hnew
  obtain ⟨own, hscene, hknown⟩ := scene_enter_self s lineage element start
  rw [hscene]
  refine ⟨?_, ?_⟩
  · rintro (hp | ⟨k, hk, hp⟩)
    · cases hp
    · rw [List.mem_singleton.1 hk] at hp
      cases hp
  · show p ∉ (own.getD (s.known lineage element)).keys
    rw [hknown]
    exact List.not_mem_nil

/-- So does any timeline that an operation brings, for nothing but entering brings one. -/
theorem entered_perform {s : Score τ} {op : Operation τ} {id : TimelineId}
    (hnew : s.timelines.length ≤ id) (hid : id < (s.perform op).timelines.length) (p : String) :
    ¬((s.perform op).scene id).Holds p ∧ p ∉ ((s.perform op).scene id).known.keys := by
  cases op with
  | begin element start => exact entered_enter (s := { s with lineages := _ }) hnew hid p
  | fork source element at? =>
    have hid' : id < (s.fork source element at?).2.timelines.length := hid
    show ¬((s.fork source element at?).2.scene id).Holds p ∧
      p ∉ ((s.fork source element at?).2.scene id).known.keys
    rw [fork_eq] at hid' ⊢
    exact entered_enter (by rwa [length_timelines_edit]) hid' p
  | change target c =>
    rw [show s.perform (.change target c) = s.edit target (·.change c) from rfl,
      length_timelines_edit] at hid
    exact absurd hid (Nat.not_lt.2 hnew)
  | merge into source =>
    rw [show s.perform (.merge into source) = s.merge into source from rfl, merge] at hid
    split at hid
    · exact absurd hid (Nat.not_lt.2 hnew)
    · rw [length_timelines_edit] at hid
      exact absurd hid (Nat.not_lt.2 hnew)
  | place q => exact absurd hid (Nat.not_lt.2 hnew)

/-- An operation that makes a branch know a property is a write that backfills it, or the
property is learned. -/
theorem known_perform {ops : List (Operation τ)} {op : Operation τ} {id : TimelineId} {p : String}
    (hid : id < (Score.empty.performAll ops).timelines.length)
    (hbefore : p ∉ ((Score.empty.performAll ops).scene id).known.keys)
    (hafter : p ∈ (((Score.empty.performAll ops).perform op).scene id).known.keys) :
    p ∈ (((Score.empty.performAll ops).perform op).scene id).timeline.backfill.keys ∨
      Learns (ops ++ [op]) id p := by
  -- a write is the only operation that backfills
  by_cases hwrite : ∃ entries easing params, op = .change id (.write entries easing params)
  · left
    obtain ⟨entries, easing, params, rfl⟩ := hwrite
    have hscene : ((Score.empty.performAll ops).perform
        (.change id (.write entries easing params))).scene id =
          (((Score.empty.performAll ops).scene id).setStyles entries easing params).1 :=
      scene_edit_self (Scene.owner_change _ (.write entries easing params)) hid
    rw [hscene] at hafter ⊢
    exact (Scene.known_or_backfill_setStyles hafter).resolve_left hbefore
  · right
    refine ⟨ops, op, [], rfl, ?_, hid, hbefore, hafter⟩
    exact fun entries easing params e => hwrite ⟨entries, easing, params, e⟩

/-- Whatever a timeline holds or its branch knows was backfilled or learned. -/
theorem held_performAll (ops : List (Operation τ)) {id : TimelineId} {p : String}
    (hid : id < (Score.empty.performAll ops).timelines.length)
    (h : ((Score.empty.performAll ops).scene id).Holds p ∨
      p ∈ ((Score.empty.performAll ops).scene id).known.keys) :
    p ∈ ((Score.empty.performAll ops).scene id).timeline.backfill.keys ∨ Learns ops id p := by
  -- on the run, by its last operation
  induction ops using List.reverseRecOn with
  | nil => cases hid
  | append_singleton ops op ih =>
    rw [performAll_append] at hid h ⊢
    by_cases hold : id < (Score.empty.performAll ops).timelines.length
    · have hgrows := grows_perform op hold
      -- what was held or known before is settled by the induction
      have hbefore : ((Score.empty.performAll ops).scene id).Holds p ∨
          p ∈ ((Score.empty.performAll ops).scene id).known.keys →
            p ∈ (((Score.empty.performAll ops).perform op).scene id).timeline.backfill.keys ∨
              Learns (ops ++ [op]) id p := by
        intro h
        rcases ih hold h with hb | hl
        · exact .inl (hgrows.backfill p hb)
        · exact .inr (hl.append [op])
      have hknown : p ∈ (((Score.empty.performAll ops).perform op).scene id).known.keys →
          p ∈ (((Score.empty.performAll ops).perform op).scene id).timeline.backfill.keys ∨
            Learns (ops ++ [op]) id p := by
        intro hk
        by_cases hk' : p ∈ ((Score.empty.performAll ops).scene id).known.keys
        · exact hbefore (.inr hk')
        · exact known_perform hold hk' hk
      rcases h with h | h
      · rcases hgrows.holds p h with h | h | h
        · exact hbefore (.inl h)
        · exact hknown h
        · exact .inl h
      · exact hknown h
    · -- a timeline that was not there before has just been entered
      obtain ⟨hholds, hknown⟩ := entered_perform (Nat.not_lt.1 hold) hid p
      rcases h with h | h
      · exact absurd h hholds
      · exact absurd h hknown

/-- The keyframes of an instruction differ at most in the properties that the branch has
learned and not backfilled. -/
theorem uniform_instruction_iff (ops : List (Operation τ)) {id : TimelineId}
    (hid : id < (Score.empty.performAll ops).timelines.length) :
    ((Score.empty.performAll ops).instruction (.timeline id)).Uniform ↔
      ∀ p, Learns ops id p →
        p ∉ ((Score.empty.performAll ops).timeline id).backfill.keys →
          ((Score.empty.performAll ops).scene id).flush.timeline.Even p := by
  show ((Score.empty.performAll ops).scene id).toInstruction.Uniform ↔ _
  rw [Scene.uniform_toInstruction_iff]
  constructor
  · exact fun h p _ hb => h p hb
  · intro h p hb
    by_cases hl : Learns ops id p
    · exact h p hl hb
    · -- not learned and not backfilled, so no keyframe has it
      right
      intro k hk hp
      rcases (Scene.grows_flush _).holds p (.inr ⟨k, hk, hp⟩) with h | h | h
      · exact (held_performAll ops hid (.inl h)).elim hb hl
      · rw [Scene.known_flush] at h
        exact (held_performAll ops hid (.inr h)).elim hb hl
      · rw [Scene.backfill_flush] at h
        exact hb h

end Score

/-! ### Compiled instructions -/

/-- The keyframes of an instruction that was not delegated carry the same properties,
except for those that the branch has learned and not backfilled, and that stand in some
of its keyframes and not in others.  The operations may be any that lead to the score of
the run; there always are some. -/
theorem uniform_compile_iff (host : Host) (root : ElementId) (tree : Animation τ)
    (setup : Setup τ) (delegated : InstructionMap τ) :
    let score := ((Walk.run (setup.setting host delegated) root tree setup []).finish root
      setup).score
    (∃ ops : List (Operation τ), score = Score.empty.performAll ops) ∧
      ∀ ops : List (Operation τ), score = Score.empty.performAll ops →
        ∀ i ∈ (compile host root tree setup delegated).instructions, i.isSubTimeline = false →
          i = .empty root setup.delay ∨
            ∃ id, .timeline id ∈ score.order ∧ i = score.instruction (.timeline id) ∧
              (i.Uniform ↔ ∀ p, Score.Learns ops id p →
                p ∉ (score.timeline id).backfill.keys →
                  (score.scene id).flush.timeline.Even p) := by
  intro score
  refine ⟨Walk.finish_operations _ root tree setup [], ?_⟩
  intro ops hops i hi hsub
  rcases mem_instructions hi with hempty | ⟨e, he, rfl⟩
  · rw [hempty, List.mem_singleton] at hi
    exact .inl hi
  · right
    have hmem : e ∈ score.order := by
      have horder : score.order = _ := Walk.order_finish root setup _
      rw [horder]
      exact List.mem_of_mem_filter he
    cases e with
    | placed p =>
      exact absurd (p.isSubTimeline_toInstruction.symm.trans hsub) (by decide)
    | timeline id =>
      -- the order lists only timelines that there are
      have hlisted : score.Listed := by
        rw [hops]
        exact Score.listed_performAll ops fun id hid => by cases hid
      have hid : id < (Score.empty.performAll ops).timelines.length := by
        rw [← hops]
        exact hlisted id hmem
      refine ⟨id, hmem, rfl, ?_⟩
      have h := Score.uniform_instruction_iff ops hid
      rw [← hops] at h
      exact h

/-- A delayed sequence animates `b` on a timeline of its own, and the first timeline of the
element goes on to animate `b` as well. -/
def twiceAnimated : Animation ℚ :=
  .sequence
    [.style (.ofEntries [("a", .number 0)]),
      .sequence [.animate (.ofDuration 100) (.style (.ofEntries [("b", .number 1)]))]
        (some (Options.none.withDelay (.number 50))),
      .animate (.ofDuration 100) (.style (.ofEntries [("b", .number 2)]))]
    none

/-- Its first instruction shows `b` in the second keyframe and not in the first. -/
theorem not_uniform_of_learned :
    ¬∀ i ∈ (compile (fun _ _ _ => []) ⟨1⟩ twiceAnimated .standard ∅).instructions,
      i.isSubTimeline = false → i.Uniform := by
  decide +kernel

end Choreography
