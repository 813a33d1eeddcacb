/-
Choreography/Proofs/Position.lean

Whether a match knows its position.

A stagger is delayed by the position of the match around it, which is read off the scope.  The
position is meant to be the same for the whole animation of the match.  But a query has no scope
of its own for its position and its number of matches: it counts in the scope that it runs in, and
sets both to zero when it is done.  Whatever follows it in the same match is taken for the first
of no matches.

So a match keeps its position just if there is no query inside its animation, and a stagger that
comes after one is not delayed by the position of the match.

Main result: `keepsPosition_iff`.
-/
import Choreography.Proofs.Descent

namespace Choreography

variable {τ : Type} [Quantity τ] {setting : Setting τ} {tree : Animation τ} {w : Walk τ}

/-- The nodes of a tree, as far as they are about the same match, leave the position and the
number of matches as they are. -/
def KeepsPosition (setting : Setting τ) (tree : Animation τ) (w : Walk τ) : Prop :=
  ∀ above before node v, Descent setting tree w above before node v →
    (∀ a ∈ above, a.kind ≠ .query) →
      (node.body setting v).scope.index = v.scope.index ∧
        (node.body setting v).scope.total = v.scope.total

/-! ### From the outside to the inside -/

/-- What is below a node other than a query is about the same match. -/
theorem KeepsPosition.inside {inner : Animation τ} {w' : Walk τ}
    (h : KeepsPosition setting tree w) (done : List (Animation τ)) (hkind : tree.kind ≠ .query)
    (hbelow : ∀ {above before node v}, Descent setting inner w' above before node v →
      Descent setting tree w (tree :: above) (done ++ before) node v) :
    KeepsPosition setting inner w' :=
  fun _ _ _ _ hd hq => h _ _ _ _ (hbelow hd) (List.forall_mem_cons.2 ⟨hkind, hq⟩)

/-- A query does not keep the position in a scope in which there are matches. -/
theorem not_keepsPosition_query (htotal : w.scope.total ≠ 0) (q : Selection)
    (animation : Animation τ) (options : Option (Options τ)) :
    ¬KeepsPosition setting (.query q animation options) w := by
  intro h
  have hkept := (h [] [] _ w (.here _ w) (by simp)).2
  -- a query leaves the scope as if there were no matches
  have hzero : ((Animation.query q animation options).body setting w).scope.total = 0 :=
    congrArg Seat.total (Walk.seat_query setting (animation.body setting) q options w)
  exact htotal (hkept.symm.trans hzero)

/-- Where there are matches the position is kept only if there is no query. -/
theorem KeepsPosition.no_query (htotal : w.scope.total ≠ 0) (h : KeepsPosition setting tree w) :
    ∀ node ∈ tree.nodes, node.kind ≠ .query := by
  -- on the tree; the walk changes, but there are matches in all its scopes
  induction tree using Animation.induct generalizing w with
  | sequence steps options ih =>
    refine List.forall_mem_cons.2 ⟨by simp [Animation.kind], forall_mem_nodesOf.2 ?_⟩
    -- the steps before a step have kept the position, for there is no query in them
    have hdone : ∀ pre post, steps = pre ++ post →
        ∀ step ∈ pre, ∀ node ∈ step.nodes, node.kind ≠ .query := by
      intro pre
      induction pre using List.reverseRecOn with
      | nil => exact fun _ _ step hstep => by cases hstep
      | append_singleton pre last ihpre =>
        intro post hsplit
        rw [List.append_assoc, List.singleton_append] at hsplit
        have hpre := ihpre (last :: post) hsplit
        have hkept : anyVacates pre = false :=
          anyVacates_eq_false.2 fun step hstep => Animation.vacates_eq_false (hpre step hstep)
        have hseat := Walk.seat_atStep setting options pre w
        rw [hkept, Seat.vacatedIf_false] at hseat
        have hlast : KeepsPosition setting last
            ((w.openSequence options).follow (bodies setting pre)) := by
          refine h.inside pre (by simp [Animation.kind]) fun hd => ?_
          rw [hsplit]
          exact .step pre hd
        refine List.forall_mem_append.2 ⟨hpre, List.forall_mem_singleton.2 ?_⟩
        refine ih last (by simp [hsplit]) ?_ hlast
        exact (congrArg Seat.total hseat).trans_ne htotal
    exact hdone steps [] (List.append_nil steps).symm
  | group steps options ih =>
    refine List.forall_mem_cons.2 ⟨by simp [Animation.kind], forall_mem_nodesOf.2 ?_⟩
    intro step hstep
    obtain ⟨pre, post, rfl⟩ := List.append_of_mem hstep
    refine ih step hstep ?_ (h.inside [] (by simp [Animation.kind]) (.branch pre))
    exact (congrArg Seat.total (Walk.seat_atBranch options (bodies setting pre) w)).trans_ne htotal
  | reference animation options ih =>
    refine List.forall_mem_cons.2 ⟨by simp [Animation.kind], ?_⟩
    exact ih (w := w.update true options) htotal
      (h.inside [] (by simp [Animation.kind]) .reference)
  | animateRef animation defaults options ih =>
    refine List.forall_mem_cons.2 ⟨by simp [Animation.kind], ?_⟩
    refine ih ?_ (h.inside [] (by simp [Animation.kind]) .use)
    exact (congrArg Seat.total (Walk.seat_openUse defaults options w)).trans_ne htotal
  | query q animation options ih => exact absurd h (not_keepsPosition_query htotal q _ options)
  | stagger timing animation ih =>
    refine List.forall_mem_cons.2 ⟨by simp [Animation.kind], ?_⟩
    refine ih ?_ (h.inside [] (by simp [Animation.kind]) .stagger)
    exact (congrArg Seat.total (Walk.seat_atStagger timing w)).trans_ne htotal
  | _ => simp [Animation.nodes, Animation.kind]

/-- Without a query the position is kept. -/
theorem keepsPosition_of_no_query (h : ∀ node ∈ tree.nodes, node.kind ≠ .query) :
    KeepsPosition setting tree w := by
  intro above before node v hd _
  have hseat := Walk.seat_body setting node v
  rw [Animation.vacates_eq_false (hd.visit.forall_mem_nodes h), Seat.vacatedIf_false] at hseat
  exact ⟨congrArg Seat.index hseat, congrArg Seat.total hseat⟩

/-! ### Matches -/

/-- A stagger that is about the same match as the tree is delayed by the position in which the
tree is compiled, or as the first of no matches if a step before has given the position up. -/
theorem Descent.atStagger_eq {timing : Timing τ} {animation : Animation τ} {v : Walk τ}
    {above before : List (Animation τ)}
    (h : Descent setting tree w above before (.stagger timing animation) v)
    (hq : ∀ a ∈ above, a.kind ≠ .query) {index total : Nat} (hw : w.seat = ⟨true, index, total⟩) :
    ∃ outer, v.scope.outer = some outer ∧
      v.atStagger timing = (v.readTiming timing true).2.delay
        (Walk.staggerDelay (v.readTiming timing true).1
          (if anyVacates before then 0 else index) (if anyVacates before then 0 else total)
          outer.staggerTime) := by
  have hseat := h.seat_eq hq
  rw [hw] at hseat
  -- entering a scope or not, the position is there until it is given up
  have hplace : ∀ entered vacated : Bool,
      ((⟨true, index, total⟩ : Seat).enteredIf entered).vacatedIf vacated
        = ⟨true, if vacated then 0 else index, if vacated then 0 else total⟩ :=
    fun entered vacated => by cases vacated <;> rfl
  rw [hplace] at hseat
  obtain ⟨outer, houter⟩ := Option.isSome_iff_exists.1 (congrArg Seat.inner hseat)
  refine ⟨outer, houter, (Walk.atStagger_of_some houter timing).trans ?_⟩
  exact congrArg₂ (fun index total => (v.readTiming timing true).2.delay
    (Walk.staggerDelay (v.readTiming timing true).1 index total outer.staggerTime))
    (congrArg Seat.index hseat) (congrArg Seat.total hseat)

/-- **A match keeps its position just if there is no query inside its animation**, and each of its
staggers is delayed by this position, unless it comes after a query. -/
theorem keepsPosition_iff (animation : Animation τ) {q : Selection} (options : Option (Options τ))
    {pre post : List ElementId} {element : ElementId}
    (selected : setting.select w.scope.element q = pre ++ element :: post) :
    let start := (w.beforeMatch setting (animation.body setting) q options pre).openMatch options
      element pre.length
    (KeepsPosition setting animation start ↔ ∀ node ∈ animation.nodes, node.kind ≠ .query) ∧
      ∀ above before timing inner v,
        Descent setting animation start above before (.stagger timing inner) v →
        (∀ a ∈ above, a.kind ≠ .query) →
          ∃ outer, v.scope.outer = some outer ∧
            v.atStagger timing = (v.readTiming timing true).2.delay
              (Walk.staggerDelay (v.readTiming timing true).1
                (if anyVacates before then 0 else pre.length)
                (if anyVacates before then 0 else (setting.select w.scope.element q).length)
                outer.staggerTime) := by
  intro start
  have hseat : start.seat = ⟨true, pre.length, (setting.select w.scope.element q).length⟩ := by
    rw [Walk.seat_openMatch, (Walk.scope_beforeMatch setting _ q options pre w).2]
  have htotal : start.scope.total ≠ 0 := by
    refine (congrArg Seat.total hseat).trans_ne ?_
    simp [selected]
  refine ⟨⟨KeepsPosition.no_query htotal, keepsPosition_of_no_query⟩, ?_⟩
  exact fun above before timing inner v hd hq => hd.atStagger_eq hq hseat

/-- A host that only knows two items. -/
def itemHost : Host := (QueryTable.withAnswer ⟨[]⟩ ⟨1⟩ ".item" [⟨10⟩, ⟨11⟩]).query

/-- A match that is shown at once and then fades in. -/
def shownThenFading : Animation ℚ :=
  .sequence [.style (.ofEntries [("q", .number 1)]), .stagger (.ofDuration 100) fadeIn] none

/-- The second of two such matches keeps its position and is delayed by one step. -/
theorem keepsPosition_iff_shownThenFading :
    let setting := (Setup.standard : Setup ℚ).setting itemHost ∅
    let w := Walk.start ⟨1⟩ .standard []
    let start := (w.beforeMatch setting (shownThenFading.body setting) (.ofWritten ".item") none
      [⟨10⟩]).openMatch none ⟨11⟩ 1
    let v := (start.openSequence none).follow
      (bodies setting [.style (.ofEntries [("q", .number 1)])])
    setting.select w.scope.element (.ofWritten ".item") = [⟨10⟩] ++ ⟨11⟩ :: [] ∧
      KeepsPosition setting shownThenFading start ∧
        v.atStagger (.ofDuration 100) = v.delay 100 := by
  intro setting w start v
  have selected : setting.select w.scope.element (.ofWritten ".item") = [⟨10⟩] ++ ⟨11⟩ :: [] := by
    decide +kernel
  obtain ⟨hkeeps, hdelayed⟩ := keepsPosition_iff shownThenFading none selected
  refine ⟨selected, hkeeps.2 (by decide), ?_⟩
  obtain ⟨outer, -, hstagger⟩ := hdelayed _ _ _ _ v
    (.step [.style (.ofEntries [("q", .number 1)])] (.here _ v)) (by decide)
  have hstep : ∀ chained, Walk.staggerDelay (⟨100, 0, none⟩ : Timings ℚ) 1 2 chained = 100 := by
    have hpos : ¬(100 : ℚ) < 0 := by decide +kernel
    intro chained
    simp [Walk.staggerDelay, Quantity.magnitude, hpos]
  rw [hstagger, selected]
  exact congrArg v.delay (hstep outer.staggerTime)

/-- A match that looks for something inside it and then fades in. -/
def searchedThenFading : Animation ℚ :=
  .sequence [(Animation.forEach ".sub" (.style (.ofEntries [("q", .number 1)]))).allowEmpty,
    .stagger (.ofDuration 100) fadeIn] none

/-- It forgets its position, and so the two matches begin together. -/
theorem not_keepsPosition_searchedThenFading :
    let setting := (Setup.standard : Setup ℚ).setting itemHost ∅
    let w := Walk.start ⟨1⟩ .standard []
    let start := (w.beforeMatch setting (searchedThenFading.body setting) (.ofWritten ".item") none
      [⟨10⟩]).openMatch none ⟨11⟩ 1
    ¬KeepsPosition setting searchedThenFading start ∧
      ((compile itemHost ⟨1⟩ (.forEach ".item" searchedThenFading) .standard
        ∅).instructions.map Instruction.delay) = [0, 0] := by
  intro setting w start
  refine ⟨fun h => ?_, by decide +kernel⟩
  have hkept := h _ _ _ _ (.step [] (.here _ _)) (by decide)
  exact absurd hkept.1 (by decide +kernel)

end Choreography
