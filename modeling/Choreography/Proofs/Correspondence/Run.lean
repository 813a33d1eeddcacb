/-
Choreography/Proofs/Correspondence/Run.lean

Whole runs side by side.

If two runs have everything in common and start from nothing, every entry of one has a
counterpart in the other, and final styles go to counterparts.  So if the walks correspond
before the tree does its work, the instructions are the same but for the times, and the same
is reported (`compileInto_eq`).
-/
import Choreography.Proofs.Correspondence.Nodes

namespace Choreography

variable {τ : Type} [Quantity τ]

/-- Two runs of which each is whole: they have everything in common and start from nothing. -/
structure Correspondence.Entire (c : Correspondence τ) : Prop where
  extent : c.extent = .all
  base : c.base.score = .empty
  base' : c.base'.score = .empty

section Entire

variable {c : Correspondence τ}

theorem Correspondence.Entire.whole (hc : c.Entire) : c.extent.Whole := by
  rw [hc.extent]
  trivial

/-- The first timelines of two runs are counterparts. -/
theorem Correspondence.Entire.corresponds_begin (hc : c.Entire) (root : ElementId) (start : τ) :
    (Score.empty.begin root start).2.Corresponds c
      (Score.empty.begin root (c.translation.time start)).2 := by
  -- nothing corresponds to nothing
  have hempty : ({ Score.empty with lineages := 1 } : Score τ).Corresponds c
      { Score.empty with lineages := 1 } := by
    refine ⟨?_, ?_, fun id _ hlt => absurd hlt (Nat.not_lt_zero id), fun lineage element _ => ?_,
      ⟨[], fun e he => (List.not_mem_nil he).elim, ?_, ?_⟩, ?_⟩
    · exact Nat.le_of_eq (by rw [hc.base])
    · rw [counterpart, hc.base, hc.base']
      rfl
    · exact ⟨rfl, .inl (Extent.exact_of_whole hc.whole), .refl c.extent _⟩
    · rw [hc.base]
      rfl
    · rw [hc.base']
      rfl
    · rw [hc.base]
      exact ⟨fun _ _ => rfl, fun _ _ _ _ => rfl⟩
  exact hempty.enter (Extent.covers_of_whole hc.whole _) start

namespace Score

variable {s s' : Score τ}

/-- All that is listed in one run is listed in the other. -/
theorem Corresponds.order_eq (h : s.Corresponds c s') (hc : c.Entire) :
    (∀ e ∈ s.order, c.Admits s e) ∧ s'.order = s.order.map c.entry := by
  obtain ⟨entries, hadmits, horder, horder'⟩ := h.order
  have hbase : c.base.score.order = [] := by
    rw [hc.base]
    rfl
  have hbase' : c.base'.score.order = [] := by
    rw [hc.base']
    rfl
  rw [hbase, List.nil_append] at horder
  rw [hbase', List.nil_append] at horder'
  rw [horder, horder']
  exact ⟨hadmits, rfl⟩

/-- What shows something in one run does in the other. -/
theorem Corresponds.animated_eq (h : s.Corresponds c s') (hc : c.Entire) :
    s'.animated = s.animated.map c.entry := by
  obtain ⟨hadmits, horder⟩ := h.order_eq hc
  rw [animated, horder]
  exact h.filter_eq hadmits

theorem Corresponds.element_eq (h : s.Corresponds c s') {e : Entry τ} (he : c.Admits s e) :
    s'.element (c.entry e) = s.element e := by
  cases e with
  | timeline id =>
    show (s'.timeline (c.counterpart id)).element = _
    rw [(h.timeline id he.1 he.2).1]
    rfl
  | placed p => rfl

/-- The final styles go to counterparts. -/
theorem Corresponds.finalTimeline?_eq (h : s.Corresponds c s') (hc : c.Entire)
    (root : ElementId) :
    s'.finalTimeline? root = (s.finalTimeline? root).map c.counterpart := by
  have hadmits : ∀ e ∈ s.animated.reverse, c.Admits s e := fun e he =>
    (h.order_eq hc).1 e (List.mem_filter.1 (List.mem_reverse.1 he)).1
  -- the last entry for the root is found at the same place
  have hfind : s'.animated.reverse.find? (s'.element · = root) =
      (s.animated.reverse.find? (s.element · = root)).map c.entry := by
    rw [h.animated_eq hc, ← List.map_reverse, List.find?_map]
    congr 1
    refine List.find?_congr fun e he => ?_
    show decide (s'.element (c.entry e) = root) = _
    rw [h.element_eq (hadmits e he)]
  unfold finalTimeline?
  rw [hfind]
  cases he : s.animated.reverse.find? (s.element · = root) with
  | none => rfl
  | some e =>
    cases e with
    | placed p => rfl
    | timeline id =>
      have hrange : c.Admits s (.timeline id) := hadmits _ (List.mem_of_find?_eq_some he)
      -- it is left out in both runs, if it does no more than set styles
      have hempty : (s'.timeline (c.counterpart id)).allowsOnlyTimelineStyles =
          (s.timeline id).allowsOnlyTimelineStyles := by
        rw [(h.timeline id hrange.1 hrange.2).1]
        rfl
      show (if (s'.timeline (c.counterpart id)).allowsOnlyTimelineStyles then none
        else some (c.counterpart id)) = _
      rw [hempty]
      show _ = (if _ then none else some id : Option TimelineId).map c.counterpart
      split <;> rfl

theorem lt_of_finalTimeline? {root : ElementId} {id : TimelineId}
    (h : s.finalTimeline? root = some id) : .timeline id ∈ s.order := by
  unfold finalTimeline? at h
  split at h
  · rename_i id' he
    have hmem := (List.mem_filter.1 (List.mem_reverse.1 (List.mem_of_find?_eq_some he))).1
    split at h
    · cases h
    · cases h
      exact hmem
  · cases h

end Score

namespace Walk

variable {w u : Walk τ}

/-- Final styles are written on counterparts, with the same reports. -/
theorem Corresponds.finish (h : w.Corresponds c u) (hc : c.Entire) (root : ElementId)
    {setup setup' : Setup τ} (hfinal : setup'.finalStyles = setup.finalStyles) :
    (w.finish root setup).score.Corresponds c (u.finish root setup').score ∧
      ∃ reports, (w.finish root setup).diagnostics = c.base.diagnostics ++ reports ∧
        (u.finish root setup').diagnostics = c.base'.diagnostics ++ reports := by
  unfold Walk.finish
  rw [hfinal, h.score.finalTimeline?_eq hc root]
  split
  · exact ⟨h.score, h.diagnostics⟩
  · cases hid : w.score.finalTimeline? root with
    | none => exact ⟨h.score, h.diagnostics⟩
    | some id =>
      obtain ⟨hge, hlt⟩ := (h.score.order_eq hc).1 _ (Score.lt_of_finalTimeline? hid)
      have hwrites : c.extent.Writes [.values setup.finalStyles] :=
        .inl (Extent.exact_of_whole hc.whole)
      obtain ⟨hkeeps, hreports⟩ := (h.score.scene hge hlt).setStyles hwrites none
        w.scope.options.params
      have hedit := h.score.edit hge hlt
        (f := fun s => (s.setStyles [.values setup.finalStyles] none w.scope.options.params).1)
        (g := fun s => (s.setStyles [.values setup.finalStyles] none u.scope.options.params).1)
        (by rw [h.params]; exact hkeeps)
      obtain ⟨before, hw, hu⟩ := h.diagnostics
      refine ⟨hedit, before ++ ((w.score.scene id).setStyles [.values setup.finalStyles] none
        w.scope.options.params).2, ?_, ?_⟩
      · rw [← List.append_assoc, ← hw]
        rfl
      · rw [← List.append_assoc, ← hu, ← hreports, ← h.params]
        rfl

/-- The beginnings of two runs correspond if their root timelines do, before they take the
starting styles. -/
theorem tandem_start (root : ElementId) {setup setup' : Setup τ} (sink sink' : List Diagnostic)
    (hx : c.extent.Exact) (hstyles : setup'.startingStyles = setup.startingStyles) :
    Tandem c ((blank root setup sink).delay setup.delay)
      ((blank root setup' sink').delay setup'.delay) (start root setup sink)
      (start root setup' sink') := by
  rw [start_eq, start_eq, hstyles]
  exact tandem_writeAt (.inl hx) none _ _

end Walk

/-- Runs whose root timelines correspond have the same instructions but for the times, and
report the same. -/
theorem compileInto_eq (hc : c.Entire) (host : Host) (root : ElementId) {tree : Animation τ}
    {setup setup' : Setup τ} (delegated : InstructionMap τ) {sink sink' : List Diagnostic}
    (hsetting : setup'.setting host delegated = setup.setting host delegated)
    (hstarting : setup'.startingStyles = setup.startingStyles)
    (hfinal : setup'.finalStyles = setup.finalStyles)
    (hdelay : setup'.delay = c.translation.time setup.delay)
    (hroot : ((Walk.blank root setup sink).delay setup.delay).Corresponds c
      ((Walk.blank root setup' sink').delay setup'.delay))
    (hnow : c.translation.ahead 0 ((Walk.blank root setup sink).delay setup.delay).currentTime)
    (hplaces : c.Places (setup.setting host delegated))
    (hallows : ∀ node ∈ tree.nodes, c.Allows node)
    (hclean : c.translation.still ∨ (compileInto host root tree setup delegated sink).2 = []) :
    (compileInto host root tree setup' delegated sink').1 =
        (compileInto host root tree setup delegated sink).1.map
          (Instruction.moved c.translation.time) ∧
      ∃ reports, (compileInto host root tree setup delegated sink).2 =
          c.base.diagnostics ++ reports ∧
        (compileInto host root tree setup' delegated sink').2 = c.base'.diagnostics ++ reports := by
  let w := Walk.run (setup.setting host delegated) root tree setup sink
  let u := Walk.run (setup'.setting host delegated) root tree setup' sink'
  -- the walks correspond after the tree, by the tandem of its nodes
  have hrun : w.Corresponds c u := by
    have htandem := (Walk.tandem_start root sink sink'
      (Extent.exact_of_whole hc.whole) hstarting).trans
        (Animation.tandem hplaces hallows (.start root setup sink) (.start root setup' sink'))
    have hw : c.translation.still ∨ w.diagnostics = [] :=
      hclean.imp_right (Walk.precedes_finish root setup w).clean
    show w.Corresponds c (tree.body (setup'.setting host delegated) (.start root setup' sink'))
    rw [hsetting]
    exact (htandem.keeps hroot hw hnow).1
  obtain ⟨hfinished, hreports⟩ := hrun.finish hc root hfinal
  refine ⟨?_, hreports⟩
  show (if u.score.animated.isEmpty then _ else _) = (if w.score.animated.isEmpty then _ else _ :
    List (Instruction τ)).map _
  rw [hrun.score.animated_eq hc, List.isEmpty_map, hdelay]
  split
  · rfl
  · refine hfinished.map_instruction_eq fun e he => ?_
    -- the instructions are read off the finished score, in which the entries are still in range
    have hmem := (List.mem_filter.1 he).1
    refine ((hrun.score.order_eq hc).1 e hmem).mono ?_
    exact (Walk.precedes_finish root setup w).length_le

end Entire

end Choreography
