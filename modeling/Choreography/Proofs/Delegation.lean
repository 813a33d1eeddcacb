/-
Choreography/Proofs/Delegation.lean

What happens to the animations that an element already has.

When they are delegated, each of them is placed at the time of the scope: its own delay is
added to the time and to the delay of the node, and the duration of the node, if it has one,
replaces its own (`Instruction.delegatedAt`).  Placements are final.  Those that have anything
to show are, in the order in which they were made, the instructions of the run that were there
before it (`filter_isSubTimeline_instructions`).

The scope goes on when the last of them is over, whether or not it has anything to show.

Main result: `delegates`.
-/
import Choreography.Proofs.Finish
import Choreography.Proofs.Length
import Choreography.Proofs.Stagger

namespace Choreography

/-! ### Placements -/

section Placements

variable {τ : Type} [Quantity τ]

/-- The duration that options give to whatever is delegated. -/
def Walk.durationOf (options : Option (Options τ)) : Option τ :=
  (options.bind Options.duration).map Scalar.milliseconds

/-- The place of an instruction that is delegated at a time. -/
def Instruction.delegatedAt (now : τ) (options : Option (Options τ)) (i : Instruction τ) :
    Placement τ where
  source := i
  duration := (Walk.durationOf options).getD i.duration
  delay := now + Walk.delayOf options + i.delay
  stretch := i.stretchStart

/-- When a placement is over. -/
def Placement.finish (p : Placement τ) : τ := p.duration + p.delay

/-- Unless it is stretched an instruction is only moved to its place. -/
theorem Placement.toInstruction_of_not_stretch {p : Placement τ} (h : p.stretch = false) :
    p.toInstruction =
      { p.source with
        duration := p.duration
        delay := p.delay
        isSubTimeline := true
        isStretched := false
        stretchStart := false } := by
  have hstretched : p.isStretched = false := by
    rw [isStretched, h]
    rfl
  rw [toInstruction, hstretched]
  rfl

/-- An instruction stays its element's. -/
theorem Placement.element_toInstruction (p : Placement τ) : p.toInstruction.element = p.element := by
  unfold toInstruction
  split <;> rfl

/-- The placement that an entry is. -/
def Entry.placement? : Entry τ → Option (Placement τ)
  | .timeline _ => none
  | .placed p => some p

namespace Score

/-- The placements of a score, in order. -/
def placements (s : Score τ) : List (Placement τ) := s.order.filterMap Entry.placement?

/-- Among the instructions of entries those that were delegated are the placements that have
anything to show. -/
theorem filter_isSubTimeline_map_instruction (s s' : Score τ) (entries : List (Entry τ)) :
    ((entries.filter s.containsAnimation).map s'.instruction).filter (·.isSubTimeline) =
      ((entries.filterMap Entry.placement?).filter Placement.containsAnimation).map
        Placement.toInstruction := by
  induction entries with
  | nil => rfl
  | cons e entries ih =>
    cases e with
    | timeline id =>
      have hown : (s'.instruction (.timeline id)).isSubTimeline = false := rfl
      rw [List.filterMap_cons_none rfl, ← ih, List.filter_cons]
      split
      · rw [List.map_cons, List.filter_cons_of_neg (by rw [hown]; exact Bool.false_ne_true)]
      · rfl
    | placed p =>
      have hplaced : (Entry.placed p).placement? = some p := rfl
      have hdelegated : (s'.instruction (.placed p)).isSubTimeline = true :=
        p.isSubTimeline_toInstruction
      rw [List.filterMap_cons_some hplaced, List.filter_cons, List.filter_cons]
      show List.filter _ (List.map _ (if p.containsAnimation = true then _ else _)) = _
      split
      · rw [List.map_cons, List.filter_cons_of_pos hdelegated, ih, List.map_cons]
        rfl
      · exact ih

theorem placements_enter (s : Score τ) (lineage : Nat) (element : ElementId) (start : τ) :
    (s.enter lineage element start).2.placements = s.placements := by
  rw [placements, order_enter, List.filterMap_append]
  exact List.append_nil _

theorem placements_fork (s : Score τ) (id : TimelineId) (element : ElementId) (at? : Option τ) :
    (s.fork id element at?).2.placements = s.placements := by
  rw [fork_eq, placements_enter]
  rfl

omit [Quantity τ] in
theorem placements_place (s : Score τ) (p : Placement τ) :
    (s.place p).placements = s.placements ++ [p] := by
  rw [placements, place, List.filterMap_append]
  rfl

end Score

/-- The delegated instructions of a run are its placements, as far as they have anything to
show. -/
theorem filter_isSubTimeline_instructions (host : Host) (root : ElementId) (tree : Animation τ)
    (setup : Setup τ) (delegated : InstructionMap τ) :
    (compile host root tree setup delegated).instructions.filter (·.isSubTimeline) =
      ((Walk.run (setup.setting host delegated) root tree setup []).score.placements.filter
        Placement.containsAnimation).map Placement.toInstruction := by
  let w := Walk.run (setup.setting host delegated) root tree setup []
  have hshown := w.score.filter_isSubTimeline_map_instruction (w.finish root setup).score w.score.order
  show (if w.score.animated.isEmpty then _ else
    w.score.animated.map (w.finish root setup).score.instruction).filter _ = _
  split
  · next hempty =>
    -- the instruction that stands for nothing was not delegated
    have hnone : w.score.order.filter w.score.containsAnimation = [] := List.isEmpty_iff.1 hempty
    rw [hnone] at hshown
    exact hshown
  · exact hshown

/-- Placements stay, and later ones come behind them. -/
theorem Walk.Precedes.placements_prefix {w w' : Walk τ} (h : w.Precedes w') :
    w.score.placements <+: w'.score.placements := by
  obtain ⟨later, hlater⟩ := h.order_prefix
  exact ⟨later.filterMap Entry.placement?, by
    rw [Score.placements, Score.placements, ← hlater, List.filterMap_append]⟩

end Placements

/-! ### Delegation -/

namespace Walk

variable {setting : Setting ℚ} {w : Walk ℚ} {options : Option (Options ℚ)}

/-- Whatever is placed at a time is placed where its instruction is delegated to, and the latest
end is that of a placement or the one before. -/
theorem placeAll_eq {now : ℚ} (hnow : w.currentTime = now)
    (hduration : w.scope.options.duration = durationOf options)
    (hdelay : w.scope.options.delay.getD 0 = delayOf options) (is : List (Instruction ℚ))
    (furthest : ℚ) :
    (placeAll is furthest w).2.score.placements =
        w.score.placements ++ is.map (Instruction.delegatedAt now options) ∧
      IsGreatest {t | t = furthest ∨ ∃ i ∈ is, t = (i.delegatedAt now options).finish}
        (placeAll is furthest w).1 := by
  -- on the instructions; the end that is furthest so far changes along the way
  induction is generalizing furthest w with
  | nil =>
    refine ⟨(List.append_nil _).symm, .inl rfl, fun t ht => ?_⟩
    rcases ht with rfl | ⟨i, hi, -⟩
    · exact le_rfl
    · cases hi
  | cons i is ih =>
    have hplace : w.place i = ((i.delegatedAt now options).finish,
        { w with score := w.score.place (i.delegatedAt now options) }) := by
      simp only [place, hnow, hduration, hdelay]
      rfl
    obtain ⟨hplacements, hreached, hbound⟩ :=
      ih (w := { w with score := w.score.place (i.delegatedAt now options) }) hnow hduration hdelay
        (Quantity.later furthest (i.delegatedAt now options).finish)
    simp only [placeAll, hplace]
    rw [later_eq_max] at hreached hbound ⊢
    refine ⟨?_, ?_, ?_⟩
    · rw [← later_eq_max, hplacements, Score.placements_place, List.append_assoc]
      rfl
    · rcases hreached with hmax | ⟨j, hj, hend⟩
      · rcases max_choice furthest (i.delegatedAt now options).finish with hleft | hright
        · exact .inl (hmax.trans hleft)
        · exact .inr ⟨i, List.mem_cons_self, hmax.trans hright⟩
      · exact .inr ⟨j, List.mem_cons_of_mem i hj, hend⟩
    · rintro t (rfl | ⟨j, hj, rfl⟩)
      · exact (le_max_left _ _).trans (hbound (.inl rfl))
      · rcases List.mem_cons.1 hj with rfl | hj
        · exact (le_max_right _ _).trans (hbound (.inl rfl))
        · exact hbound (.inr ⟨j, hj, rfl⟩)

theorem placements_enter (options : Option (Options ℚ)) (element : ElementId) (w : Walk ℚ) :
    (w.enter options element).score.placements = w.score.placements := by
  rw [enter_score]
  exact Score.placements_fork w.score w.scope.timeline element none

/-- Going on at the end of what was placed. -/
theorem goOn {finish : ℚ} (hnow : 0 ≤ w.currentTime) (hle : w.currentTime ≤ finish) :
    let w' := if w.currentTime != finish then w.renew (some finish) else w
    w'.score.placements = w.score.placements ∧ w'.currentTime = finish := by
  intro w'
  by_cases hend : w.currentTime = finish
  · -- there is nothing to wait for
    have hstays : w' = w := if_neg (by simpa using hend)
    rw [hstays]
    exact ⟨rfl, hend⟩
  · have hgoes : w' = w.renew (some finish) := if_pos (by simpa using hend)
    rw [hgoes]
    exact ⟨Score.placements_fork w.score w.scope.timeline w.scope.element (some finish),
      currentTime_renew_of_le hnow hle⟩

/-- Delegation places the animations of the element, and goes on when the last of them is over. -/
theorem animateChild_spec (hv : w.Valid) (hnow : 0 ≤ w.currentTime)
    (hduration : durationOf options ≠ some 0) :
    let is := setting.delegated.instructions w.scope.element
    (w.animateChild setting options).score.placements =
        w.score.placements ++ is.map (Instruction.delegatedAt w.currentTime options) ∧
      IsGreatest {t | t = w.currentTime ∨
          ∃ i ∈ is, t = (i.delegatedAt w.currentTime options).finish}
        (w.animateChild setting options).currentTime := by
  intro is
  cases hhas : setting.delegated.contains w.scope.element with
  | false =>
    -- the element has no animations
    have hwalk : w.animateChild setting options = w.after .animateChild := by
      simp only [animateChild, hhas, Bool.false_eq_true, if_false]
    have hempty : is = [] := by
      have hget : setting.delegated.get? w.scope.element = none := by
        rw [← Option.not_isSome_iff_eq_none, OrderedMap.get?_isSome, hhas]
        exact Bool.false_ne_true
      show (setting.delegated.get? w.scope.element).getD [] = []
      rw [hget]
      rfl
    rw [hwalk, hempty]
    refine ⟨(List.append_nil _).symm, .inl rfl, fun t ht => ?_⟩
    rcases ht with rfl | ⟨i, hi, -⟩
    · exact le_rfl
    · cases hi
  | true =>
    let inner := w.enter options w.scope.element
    have hinner : inner.currentTime = w.currentTime := currentTime_enter w options w.scope.element
    obtain ⟨hinnerDuration, hinnerDelay⟩ := options_enter options w.scope.element w
    have hdurationOf : inner.scope.options.duration = durationOf options := by
      cases options <;> exact hinnerDuration
    have hdelayOf : inner.scope.options.delay.getD 0 = delayOf options := by
      cases options <;> exact hinnerDelay
    -- only a duration of zero would leave the animations out
    have hplace : inner.placeDelegated setting = placeAll is w.currentTime inner := by
      have hany : inner.scope.options.duration.any (· == 0) = false := by
        rw [hdurationOf]
        cases h : durationOf options with
        | none => rfl
        | some d => simpa using fun hzero => hduration (h.trans (congrArg some hzero))
      rw [placeDelegated, hany, if_neg Bool.false_ne_true, hinner, enter_element]
    obtain ⟨hplacements, hgreatest⟩ := placeAll_eq hinner hdurationOf hdelayOf is w.currentTime
    let outer := leave w.scope (placeAll is w.currentTime inner).2
    have hback : outer.currentTime = w.currentTime :=
      (spared_leave hv rfl rfl (Effect.compositional.placeAll is w.currentTime inner)).currentTime_eq
    obtain ⟨hkept, hend⟩ := goOn (w := outer) (hnow.trans hback.ge)
      (hback.le.trans (hgreatest.2 (.inl rfl)))
    have hwalk : w.animateChild setting options =
        (if outer.currentTime != (placeAll is w.currentTime inner).1 then
          outer.renew (some (placeAll is w.currentTime inner).1) else outer).after .animateChild := by
      simp only [animateChild, hhas, if_true]
      rw [hplace]
    rw [hwalk]
    refine ⟨hkept.trans (hplacements.trans ?_), ?_⟩
    · rw [placements_enter]
    · rw [← hend] at hgreatest
      exact hgreatest

end Walk

/-! ### Runs -/

/-- **Delegation is faithful.**  A node that delegates places each of the animations that its
element has already once and in order, at its time and with its duration and delay, and goes on
when the last of them is over.  Of these placements the run emits those that have more than one
keyframe, between what was delegated before and what is delegated later; and unless its delay is
to be folded into the keyframes, an animation is only moved to its place. -/
theorem delegates {host : Host} {root : ElementId} {tree : Animation ℚ} {setup : Setup ℚ}
    {delegated : InstructionMap ℚ} {options : Option (Options ℚ)} {v : Walk ℚ}
    (h : Visit (setup.setting host delegated) tree (.start root setup []) (.animateChild options) v)
    (hnow : 0 ≤ v.currentTime) (hduration : Walk.durationOf options ≠ some 0) :
    let setting := setup.setting host delegated
    let run := Walk.run setting root tree setup []
    let v' := (Animation.animateChild options).body setting v
    let is := delegated.instructions v.scope.element
    let place := Instruction.delegatedAt v.currentTime options
    let shown := fun ps : List (Placement ℚ) =>
      (ps.filter Placement.containsAnimation).map Placement.toInstruction
    v'.score.placements = v.score.placements ++ is.map place ∧
      (∃ later, run.score.placements = v'.score.placements ++ later ∧
        (compile host root tree setup delegated).instructions.filter (·.isSubTimeline) =
          shown v.score.placements ++
            (is.filter fun i => 1 < i.keyframes.length).map (fun i => (place i).toInstruction) ++
            shown later) ∧
      (∀ i ∈ is, (place i).toInstruction.element = i.element ∧ (i.stretchStart = false →
        (place i).toInstruction =
          { i with
            duration := (Walk.durationOf options).getD i.duration
            delay := v.currentTime + Walk.delayOf options + i.delay
            isSubTimeline := true
            isStretched := false
            stretchStart := false })) ∧
      IsGreatest {t | t = v.currentTime ∨ ∃ i ∈ is, t = (place i).duration + (place i).delay}
        v'.currentTime := by
  intro setting run v' is place shown
  have hvalid : v.Valid := h.valid (Walk.valid_start root setup [])
  obtain ⟨hplacements, hgreatest⟩ :
      v'.score.placements = v.score.placements ++ is.map place ∧
        IsGreatest {t | t = v.currentTime ∨ ∃ i ∈ is, t = (place i).duration + (place i).delay}
          v'.currentTime :=
    Walk.animateChild_spec hvalid hnow hduration
  obtain ⟨later, hlater⟩ := h.follows.placements_prefix
  refine ⟨hplacements, ⟨later, hlater.symm, ?_⟩, fun i _ => ⟨(place i).element_toInstruction,
    fun hstretch => Placement.toInstruction_of_not_stretch hstretch⟩, hgreatest⟩
  -- placements are shown one by one, so later ones come behind
  have happend : ∀ xs ys, shown (xs ++ ys) = shown xs ++ shown ys := fun xs ys => by
    simp only [shown, List.filter_append, List.map_append]
  have hkept : shown (is.map place) =
      (is.filter fun i => 1 < i.keyframes.length).map (fun i => (place i).toInstruction) := by
    simp only [shown, List.filter_map, List.map_map]
    rfl
  have hrun : run.score.placements = v.score.placements ++ is.map place ++ later :=
    hlater.symm.trans (congrArg (· ++ later) hplacements)
  calc (compile host root tree setup delegated).instructions.filter (·.isSubTimeline)
    _ = shown run.score.placements :=
      filter_isSubTimeline_instructions host root tree setup delegated
    _ = shown (v.score.placements ++ is.map place ++ later) := by rw [hrun]
    _ = _ := by rw [happend, happend, hkept]

/-- A short animation, one that is stretched, and a long one with nothing to show. -/
def fadings : List (Instruction ℚ) :=
  let frame := fun offset value =>
    (⟨offset, none, .ofList [("opacity", .literal (.number value))]⟩ : Keyframe ℚ)
  let short := { Instruction.empty ⟨1⟩ 20 with
    duration := 100, keyframes := [frame 0 0, frame 1 1], easing := some "ease" }
  [short, { short with delay := 0, stretchStart := true },
    { Instruction.empty ⟨1⟩ 300 with duration := 500, keyframes := [frame 0 0] }]

/-- They are delegated after a step, with a duration and a delay. -/
def fadingAfterStep : Animation ℚ :=
  .sequence [fadeIn, .animateChild (some ((Options.none.withDelay (.number 10)).withDuration
    (.text "0.2s")))] none

/-- Two of them are shown, and the scope goes on when the third one is over. -/
theorem delegates_fadings :
    let delegated : InstructionMap ℚ := .ofList [(⟨1⟩, fadings)]
    let setting := (Setup.standard : Setup ℚ).setting (fun _ _ _ => []) delegated
    let options := some ((Options.none.withDelay (.number 10)).withDuration (.text "0.2s"))
    let v := fadeIn.body setting (Walk.start ⟨1⟩ .standard [])
    let v' := (Animation.animateChild options).body setting v
    Visit setting fadingAfterStep (Walk.start ⟨1⟩ .standard []) (.animateChild options) v ∧
      0 ≤ v.currentTime ∧ Walk.durationOf options ≠ some 0 ∧
        v'.score.placements = fadings.map (Instruction.delegatedAt 100 options) ∧
          ((compile (fun _ _ _ => []) ⟨1⟩ fadingAfterStep .standard delegated).instructions.filter
            (·.isSubTimeline)).map (fun i => (i.delay, i.duration)) = [(130, 200), (0, 310)] ∧
            v'.currentTime = 610 := by
  intro delegated setting options v v'
  have hvisit : Visit setting fadingAfterStep (Walk.start ⟨1⟩ .standard [])
      (.animateChild options) v := by
    have hstep : Visit setting (.sequence ([fadeIn] ++ .animateChild options :: []) none)
        (Walk.start ⟨1⟩ .standard []) (.animateChild options) v := .step (.here _ _)
    exact hstep
  have hnow : 0 ≤ v.currentTime := by decide +kernel
  have hduration : Walk.durationOf options ≠ some 0 := by decide +kernel
  obtain ⟨hplacements, -⟩ := delegates hvisit hnow hduration
  refine ⟨hvisit, hnow, hduration, hplacements.trans ?_, ?_, ?_⟩
  · decide +kernel
  · decide +kernel
  · decide +kernel

end Choreography
