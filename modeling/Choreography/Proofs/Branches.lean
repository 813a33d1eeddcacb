/-
Choreography/Proofs/Branches.lean

Branches of a group that write different properties.

All branches share what is known of the element, and a branch adds to it what it writes.  But
a branch has a memory of its own, for the element was known before; of what is shared it looks
only at the properties that it is about to write, and only if its styles are maps of properties
(`Animation.Plain`).  So if no other branch writes these properties it does not matter which
branches were done before (`corresponds_insideBranch`).

What the group makes of its branches does not depend on their order either: it goes on when the
longest of them ends, and each property has at most one branch to be taken over from.

Main result: `group_perm`.
-/
import Choreography.Proofs.Block
import Choreography.Proofs.Stagger
import Choreography.Proofs.Written

namespace Choreography

variable {τ : Type}

/-! ### Properties -/

/-- The properties that a style names. -/
def StyleStep.properties (step : StyleStep τ) : List String :=
  step.entries.flatMap fun
    | .wildcard => []
    | .values values => values.keys

namespace Animation

/-- The properties that a tree names. -/
def properties (tree : Animation τ) : List String :=
  tree.nodes.flatMap fun node => node.styleSteps.flatMap StyleStep.properties

/-- A tree without queries and staggers, all of whose styles are maps of properties. -/
structure Plain (tree : Animation τ) : Prop where
  queries : ∀ q a o, .query q a o ∉ tree.nodes
  staggers : ∀ t a, .stagger t a ∉ tree.nodes
  maps : ∀ node ∈ tree.nodes, ∀ step ∈ node.styleSteps,
    step.entries ≠ [] ∧ .wildcard ∉ step.entries

/-- A plain tree does the same wherever the same is known of its properties. -/
theorem Plain.carries [Quantity τ] {tree : Animation τ} (h : tree.Plain) (setting : Setting τ)
    (key : Nat × ElementId) (w u : Walk τ) :
    (Correspondence.apart (.names key tree.properties) w u).Carries (tree.body setting) := by
  refine tandem (fun _ _ _ => .inl trivial) fun node hnode => ?_
  have hwrites : ∀ step ∈ node.styleSteps,
      (Extent.names key tree.properties).Writes step.entries := by
    refine fun step hstep => .inr fun entry hentry => ?_
    cases entry with
    | wildcard => exact absurd hentry (h.maps node hnode step hstep).2
    | values values =>
      refine ⟨values, rfl, fun p hp => ?_⟩
      exact List.mem_flatMap.2 ⟨node, hnode, List.mem_flatMap.2 ⟨step, hstep,
        List.mem_flatMap.2 ⟨_, hentry, hp⟩⟩⟩
  refine Correspondence.allows_of_applies (fun _ _ _ => trivial) (fun step hstep => ?_) ?_ ?_
  · exact ⟨hwrites step hstep, fun hnil => absurd hnil (h.maps node hnode step hstep).1⟩
  · rintro q a o rfl
    exact absurd hnode (h.queries q a o)
  · rintro t a rfl
    exact absurd hnode (h.staggers t a)

end Animation

variable [Quantity τ]

namespace Walk

/-- What branches register, branch by branch. -/
def branchBlocks (options : Option (Options τ)) :
    List (Body τ) → Walk τ → List (List (Entry τ))
  | [], _ => []
  | body :: bodies, w =>
    let next := leave w.scope (w.insideBranch options body)
    w.registered next :: branchBlocks options bodies next

/-- What is known of the element of the scope. -/
def knows (w : Walk τ) (p : String) : Option (StyleValue τ) :=
  (w.score.known w.timeline.lineage w.scope.element).get? p

theorem knows_eq {w : Walk τ} (hw : w.Valid) (p : String) :
    w.knows p = (w.score.scene w.scope.timeline).shared.get? p := by
  rw [knows, ← hw.element]
  rfl

/-- Two walks side by side, as far as a branch of a group is concerned. -/
abbrev beside (step : Animation τ) (w u : Walk τ) : Correspondence τ :=
  .apart (.names (w.timeline.lineage, w.scope.element) step.properties) w u

section Branch

variable {setting : Setting τ} {step : Animation τ} {options : Option (Options τ)} {w u : Walk τ}

/-! ### One branch -/

theorem effect_leave_insideBranch (setting : Setting τ) (step : Animation τ)
    (options : Option (Options τ)) (w : Walk τ) :
    Effect w (leave w.scope (w.insideBranch options (step.body setting))) :=
  .leave rfl rfl rfl (effect_insideBranch (step.effect setting) options w)

/-- It does not matter after which other branches a branch is done, if they leave alone what is
known of its properties. -/
theorem corresponds_insideBranch (setting : Setting τ) (options : Option (Options τ))
    (hplain : step.Plain) (hw : w.Valid) (hu : u.Valid) (h : w.Alike u) (hroom : w.score.Housed)
    (hroom' : u.score.Housed)
    (hsame : ∀ p ∈ step.properties, u.knows p = w.knows p) :
    (w.insideBranch options (step.body setting)).Corresponds (beside step w u)
      (u.insideBranch options (step.body setting)) := by
  -- both scores have room for the element, so the branch gets a memory of its own in both
  have hcell : ∀ v : Walk τ, v.Valid → v.score.Housed →
      v.score.shared.contains (v.timeline.lineage, v.scope.element) = true := by
    intro v hv hroom
    rw [← hv.element]
    exact hroom _ hv.timeline
  have hshares : ∀ lineage e,
      (Extent.names (w.timeline.lineage, w.scope.element) step.properties).Covers (lineage, e) →
        w.score.Shares (.names (w.timeline.lineage, w.scope.element) step.properties) u.score
          lineage e := by
    rintro lineage e hkey
    cases hkey
    have hcell' := hcell u hu hroom'
    rw [h.lineage_eq, h.element] at hcell'
    refine ⟨by rw [hcell w hw hroom, hcell'], .inr (hcell w hw hroom), False.elim, fun p hp => ?_⟩
    have hp' := hsame p hp
    rw [knows, h.lineage_eq, h.element] at hp'
    exact hp'
  have henter := corresponds_enter_apart (x := .names (w.timeline.lineage, w.scope.element)
    step.properties) id hw hu h hroom hroom' options rfl hshares
  -- inside, the branch is a plain tree, which looks at its own properties only
  have hinside := (tandem_delay (c := beside step w u) (delayOf options)
    (w.enter options w.scope.element) (u.enter options w.scope.element)).trans
      (hplain.carries setting _ w u _ _)
  have hopen : u.enter options w.scope.element = u.enter options u.scope.element := by
    rw [h.element]
  rw [hopen] at henter hinside
  exact (hinside.keeps henter (.inl trivial) trivial).1

/-- Other properties stay as they are. -/
theorem knows_leave_insideBranch (hw : w.Valid)
    (h : (w.insideBranch options (step.body setting)).Corresponds (beside step w u)
      (u.insideBranch options (step.body setting))) {p : String} (hp : p ∉ step.properties) :
    (leave w.scope (w.insideBranch options (step.body setting))).knows p = w.knows p := by
  have halike : w.Alike (leave w.scope (w.insideBranch options (step.body setting))) :=
    alike_leave hw rfl rfl (effect_insideBranch (step.effect setting) options w)
  rw [knows, knows, halike.lineage_eq]
  exact h.score.spares.names _ _ p hp

/-- Its own properties are left the same, wherever it was done. -/
theorem knows_leave_insideBranch_of_mem (hw : w.Valid) (hu : u.Valid)
    (h : (w.insideBranch options (step.body setting)).Corresponds (beside step w u)
      (u.insideBranch options (step.body setting))) {p : String} (hp : p ∈ step.properties) :
    (leave w.scope (w.insideBranch options (step.body setting))).knows p =
      (u.insideBranch options (step.body setting)).knows p := by
  have halike : w.Alike (leave w.scope (w.insideBranch options (step.body setting))) :=
    alike_leave hw rfl rfl (effect_insideBranch (step.effect setting) options w)
  have hvalid : (u.insideBranch options (step.body setting)).Valid :=
    (effect_insideBranch (step.effect setting) options u).valid (hu.enter _ _)
  -- both branches are for the same element of the same lineage
  have hkey := Prod.mk.inj h.covers
  have hsame := h.scene.shared.names p hp
  rw [← knows_eq h.valid, ← knows_eq hvalid] at hsame
  rw [hsame, knows, knows, hkey.1, hkey.2, halike.lineage_eq]
  rfl

/-- What it has registered shows the same, as long as nobody changes its timelines. -/
theorem emitted_insideBranch
    (h : (w.insideBranch options (step.body setting)).Corresponds (beside step w u)
      (u.insideBranch options (step.body setting))) {s : Score τ}
    (hs : ∀ id, w.score.timelines.length ≤ id →
      id < (w.insideBranch options (step.body setting)).score.timelines.length →
        s.timeline id = (w.insideBranch options (step.body setting)).score.timeline id) :
    s.emitted (w.registered (w.insideBranch options (step.body setting))) =
      (u.insideBranch options (step.body setting)).score.emitted
        (u.registered (u.insideBranch options (step.body setting))) := by
  refine h.emitted_eq (fun id hid => ?_) hs
  -- a timeline of a branch has a memory of its own
  obtain ⟨hge, hlt, -⟩ := h.mem_registered hid
  exact .inr ((h.score.timeline id hge hlt).2.remembers.resolve_left fun hx => hx)

/-! ### One branch after another -/

/-- What branches have led to, in terms of branches that are each done first. -/
structure Branched (setting : Setting τ) (options : Option (Options τ)) (v : Walk τ)
    (steps : List (Animation τ)) (furthest : τ) (w : Walk τ)
    (done : Walk τ × τ × List TimelineId) : Prop where
  furthest : done.2.1 = (steps.map fun step =>
    (v.insideBranch options (step.body setting)).currentTime).foldl Quantity.later furthest
  writes : ∀ p, (done.2.2.filterMap fun id => (done.1.score.timeline id).summary.get? p) =
    steps.filterMap fun step =>
      (v.insideBranch options (step.body setting)).timeline.summary.get? p
  untouched : ∀ p, (∀ step ∈ steps, p ∉ step.properties) → done.1.knows p = w.knows p
  written : ∀ step ∈ steps, ∀ p ∈ step.properties,
    done.1.knows p = (v.insideBranch options (step.body setting)).knows p
  shown : ∀ s : Score τ, (∀ id, w.score.timelines.length ≤ id →
      id < done.1.score.timelines.length → s.timeline id = done.1.score.timeline id) →
    (branchBlocks options (bodies setting steps) w).map s.emitted = steps.map fun step =>
      (v.insideBranch options (step.body setting)).score.emitted
        (v.registered (v.insideBranch options (step.body setting)))

/-- Each branch does what it would have done first, if no two branches share a property. -/
theorem branched (setting : Setting τ) (options : Option (Options τ)) {v : Walk τ} (hv : v.Valid)
    (hroom' : v.score.Housed) {steps : List (Animation τ)} (hplain : ∀ step ∈ steps, step.Plain)
    (hdisjoint : steps.Pairwise fun a b => a.properties.Disjoint b.properties) (furthest : τ)
    (hw : w.Valid) (hroom : w.score.Housed) (h : w.Alike v)
    (hsame : ∀ step ∈ steps, ∀ p ∈ step.properties, v.knows p = w.knows p) :
    Branched setting options v steps furthest w
      (branches options (bodies setting steps) furthest w) := by
  -- on the branches done so far: each meets a walk that is like the first one but for properties
  -- which it does not look at
  induction steps generalizing w furthest with
  | nil =>
    exact ⟨rfl, fun _ => rfl, fun _ _ => rfl, (fun step hstep => by cases hstep), fun _ _ => rfl⟩
  | cons step steps ih =>
    rw [List.forall_mem_cons] at hplain hsame
    rw [List.pairwise_cons] at hdisjoint
    let inside := w.insideBranch options (step.body setting)
    let inside' := v.insideBranch options (step.body setting)
    let next := leave w.scope inside
    let rest := branches options (bodies setting steps)
      (Quantity.later furthest inside.currentTime) next
    have hinside : inside.Corresponds (beside step w v) inside' :=
      corresponds_insideBranch setting options hplain.1 hw hv h hroom hroom' hsame.1
    have hnext : Effect w next := effect_leave_insideBranch setting step options w
    have hrest : Effect next rest.1 :=
      Effect.compositional.branches effect_of_mem_bodies options _ next
    have halike : w.Alike next :=
      alike_leave hw rfl rfl (effect_insideBranch (step.effect setting) options w)
    -- what the first branch adds to what is known is not looked at by the others
    have hspared : ∀ p, p ∉ step.properties → next.knows p = w.knows p :=
      fun p hp => knows_leave_insideBranch hw hinside hp
    have hknows : ∀ p ∈ step.properties, next.knows p = inside'.knows p :=
      fun p hp => knows_leave_insideBranch_of_mem hw hv hinside hp
    -- later branches do not come back to the timelines of this one
    have hline : ∀ id, w.score.timelines.length ≤ id → id < inside.score.timelines.length →
        rest.1.score.timeline id = inside.score.timeline id := fun id hge hlt =>
      hrest.timeline_eq hlt (Nat.ne_of_gt (Nat.lt_of_lt_of_le hw.timeline hge))
    obtain ⟨hfurthest, hwrites, huntouched, hwritten, hshown⟩ :=
      -- the other branches meet what they would have met, for no property of theirs is among those
      -- of the first
      ih hplain.2 hdisjoint.2 (Quantity.later furthest inside.currentTime) (hnext.valid hw)
        (hnext.precedes.housed hroom) (halike.symm.trans h) fun other hother p hp => by
          rw [hsame.2 other hother p hp, hspared p fun hp' => hdisjoint.1 other hother hp' hp]
    refine ⟨?_, fun p => ?_, fun p hp => ?_, List.forall_mem_cons.2 ⟨fun p hp => ?_, hwritten⟩,
      fun s hs => ?_⟩
    · rw [List.map_cons, List.foldl_cons]
      have htime : inside'.currentTime = inside.currentTime := hinside.currentTime_eq
      rw [htime]
      exact hfurthest
    · show (inside.scope.timeline :: rest.2.2).filterMap (fun id =>
        (rest.1.score.timeline id).summary.get? p) = _
      have hsummary : inside'.timeline.summary = inside.timeline.summary := by
        rw [hinside.timeline_eq_of_apart]
      rw [List.filterMap_cons, List.filterMap_cons, hwrites p, hsummary,
        hline _ hinside.since hinside.valid.timeline]
      rfl
    · rw [List.forall_mem_cons] at hp
      exact (huntouched p hp.2).trans (hspared p hp.1)
    · exact (huntouched p fun other hother hp' => hdisjoint.1 other hother hp hp').trans
        (hknows p hp)
    · have hhead : s.emitted (w.registered next) =
          inside'.score.emitted (v.registered inside') :=
        emitted_insideBranch hinside fun id hge hlt =>
          (hs id hge (Nat.lt_of_lt_of_le hlt hrest.length_le)).trans (hline id hge hlt)
      have htail := hshown s fun id hge hlt => hs id (hnext.length_le.trans hge) hlt
      exact congrArg₂ List.cons hhead htail

/-- The writes on the timeline of a branch are of its properties. -/
theorem mem_properties_of_summary (hplain : step.Plain) (hw : w.Valid) (hroom : w.score.Housed)
    {p : String}
    (hp : (w.insideBranch options (step.body setting)).timeline.summary.get? p ≠ none) :
    p ∈ step.properties := by
  -- the branch next to itself: what it writes lies within the extent
  have hinside := corresponds_insideBranch setting options hplain hw hw (.refl w) hroom hroom
    fun _ _ => rfl
  refine hinside.scene.within.summary p ?_
  by_contra hmem
  exact hp (OrderedMap.get?_eq_none_iff.2 hmem)

/-- What branches register are the blocks, one after another. -/
theorem registered_branches (setting : Setting τ) (steps : List (Animation τ))
    (options : Option (Options τ)) (furthest : τ) (w : Walk τ) :
    w.registered (branches options (bodies setting steps) furthest w).1 =
      (branchBlocks options (bodies setting steps) w).flatten := by
  induction steps generalizing w furthest with
  | nil => exact List.drop_length
  | cons step steps ih =>
    rw [bodies, branchBlocks, List.flatten_cons, ← ih]
    exact registered_trans (effect_leave_insideBranch setting step options w).precedes
      (Effect.compositional.branches effect_of_mem_bodies options _ _).precedes

end Branch

/-! ### A group as a whole -/

section Group

variable {setting : Setting τ} {steps : List (Animation τ)} {options : Option (Options τ)}
  {w : Walk τ}

theorem order_gather (ids : List TimelineId) (w : Walk τ) :
    (w.gather ids).score.order = w.score.order := by
  induction ids generalizing w with
  | nil => rfl
  | cons id ids ih =>
    exact (ih { w with score := w.score.merge w.scope.timeline id }).trans (order_merge _ _ _)

theorem effect_group_rest (setting : Setting τ) (steps : List (Animation τ))
    (options : Option (Options τ)) (w : Walk τ) :
    Effect (branches options (bodies setting steps) w.currentTime w).1
      (w.group (bodies setting steps) options) :=
  ((Effect.compositional.gather _ _).trans (effect_renew _ _)).trans
    (Effect.compositional.after .group _)

/-- A group registers its branches, and the timeline in which it goes on. -/
theorem registered_group (setting : Setting τ) (steps : List (Animation τ))
    (options : Option (Options τ)) (w : Walk τ) :
    w.registered (w.group (bodies setting steps) options) =
      (w.branchBlocks options (bodies setting steps)).flatten ++
        [.timeline (w.group (bodies setting steps) options).scope.timeline] := by
  let done := branches options (bodies setting steps) w.currentTime w
  -- after the branches only the new timeline is listed
  have hclosed : done.1.registered (w.group (bodies setting steps) options) =
      [.timeline (w.group (bodies setting steps) options).scope.timeline] := by
    have horder : (w.group (bodies setting steps) options).score.order =
        (done.1.gather done.2.2).score.order ++
          [.timeline (done.1.gather done.2.2).score.timelines.length] :=
      Score.order_fork _ _ _ (some done.2.1)
    have hline : (w.group (bodies setting steps) options).scope.timeline =
        (done.1.gather done.2.2).score.timelines.length := renew_timeline (some done.2.1) _
    rw [registered, horder, order_gather, hline]
    exact List.drop_left
  rw [registered_trans (Effect.compositional.branches effect_of_mem_bodies options _ w).precedes
    (effect_group_rest setting steps options w).precedes, registered_branches, hclosed]

/-- It goes on at the latest of the ends of its branches. -/
theorem timeline_group (setting : Setting τ) (steps : List (Animation τ))
    (options : Option (Options τ)) (hw : w.Valid) :
    ∃ lineage own, (w.group (bodies setting steps) options).timeline =
      .begin lineage w.scope.element
        (if (branches options (bodies setting steps) w.currentTime w).2.1 != 0 then
          (branches options (bodies setting steps) w.currentTime w).2.1
        else w.currentTime) own := by
  let done := branches options (bodies setting steps) w.currentTime w
  have hspared : Spared w done.1 := (spared_branches effect_of_mem_bodies options _ hw).1
  obtain ⟨lineage, own, hnew⟩ := timeline_renew (some done.2.1) (done.1.gather done.2.2)
  -- gathering leaves the clock alone, and so have the branches
  have hstart : (done.1.gather done.2.2).score.forkTime
      (done.1.gather done.2.2).scope.timeline (some done.2.1) =
        if done.2.1 != 0 then done.2.1 else w.currentTime := by
    show (if done.2.1 != 0 then done.2.1 else (done.1.gather done.2.2).currentTime) = _
    rw [currentTime_gather, hspared.currentTime_eq]
  have helement : (done.1.gather done.2.2).scope.element = w.scope.element := hspared.element
  rw [hstart, helement] at hnew
  exact ⟨lineage, own, hnew⟩

/-- What the branches of a group show in the end is what each of them shows if it is done
first. -/
theorem emitted_group (hplain : ∀ step ∈ steps, step.Plain)
    (hdisjoint : steps.Pairwise fun a b => a.properties.Disjoint b.properties) (hw : w.Valid)
    (hroom : w.score.Housed) {s : Score τ}
    (hs : ∀ id, w.score.timelines.length ≤ id →
      id < (w.group (bodies setting steps) options).scope.timeline →
        s.timeline id = (w.group (bodies setting steps) options).score.timeline id) :
    (w.branchBlocks options (bodies setting steps)).map s.emitted = steps.map fun step =>
      (w.insideBranch options (step.body setting)).score.emitted
        (w.registered (w.insideBranch options (step.body setting))) := by
  let done := branches options (bodies setting steps) w.currentTime w
  have hbranched := branched setting options hw hroom hplain hdisjoint w.currentTime
    hw hroom (.refl w) fun _ _ _ _ => rfl
  have hspared : Spared w done.1 := (spared_branches effect_of_mem_bodies options _ hw).1
  have hline : (w.group (bodies setting steps) options).scope.timeline =
      (done.1.gather done.2.2).score.timelines.length := renew_timeline (some done.2.1) _
  refine hbranched.shown s fun id hge hlt => ?_
  have hgathered := (Effect.compositional.gather done.2.2 done.1).length_le
  rw [hs id hge (hline ▸ Nat.lt_of_lt_of_le hlt hgathered)]
  -- nobody comes back to the timelines of the branches
  refine (effect_group_rest setting steps options w).timeline_eq hlt ?_
  rw [hspared.line]
  exact Nat.ne_of_gt (Nat.lt_of_lt_of_le hw.timeline hge)

end Group

end Walk

/-! ### The order of branches -/

/-- If at most one element of a list has a value, the order does not matter. -/
theorem filterMap_eq_of_perm {α β : Type} {xs ys : List α} {f : α → Option β}
    (hone : xs.Pairwise fun a b => f a = none ∨ f b = none) (hperm : ys.Perm xs) :
    ys.filterMap f = xs.filterMap f := by
  -- at most one value is found, so there is no order to lose
  have hshort : xs.filterMap f = [] ∨ ∃ b, xs.filterMap f = [b] := by
    clear hperm
    induction xs with
    | nil => exact .inl rfl
    | cons a xs ih =>
      rw [List.pairwise_cons] at hone
      cases ha : f a with
      | none =>
        rw [List.filterMap_cons_none ha]
        exact ih hone.2
      | some b =>
        have hrest : xs.filterMap f = [] := List.filterMap_eq_nil_iff.2 fun x hx =>
          (hone.1 x hx).resolve_left (by rw [ha]; exact Option.some_ne_none b)
        exact .inr ⟨b, by rw [List.filterMap_cons_some ha, hrest]⟩
  rcases hshort with hnil | ⟨b, hsingle⟩
  · rw [hnil]
    exact List.perm_nil.1 (hnil ▸ hperm.filterMap f)
  · rw [hsingle]
    exact List.perm_singleton.1 (hsingle ▸ hperm.filterMap f)

/-- The longest of the branches ends at the same time in any order. -/
theorem Walk.Branched.furthest_eq_of_perm {setting : Setting ℚ} {options : Option (Options ℚ)}
    {v w : Walk ℚ} {steps steps' : List (Animation ℚ)} {furthest : ℚ}
    {done done' : Walk ℚ × ℚ × List TimelineId}
    (h : Branched setting options v steps furthest w done)
    (h' : Branched setting options v steps' furthest w done') (hperm : steps'.Perm steps) :
    done'.2.1 = done.2.1 := by
  rw [h'.furthest, h.furthest]
  -- the later of two times does not depend on which comes first
  refine (hperm.map _).foldl_eq' (fun x _ y _ z => ?_) _
  rw [later_eq_max, later_eq_max, later_eq_max, later_eq_max]
  exact max_right_comm z x y

section Permutations

variable {setting : Setting τ} {options : Option (Options τ)} {v w : Walk τ}
  {steps steps' : List (Animation τ)} {furthest : τ} {done done' : Walk τ × τ × List TimelineId}

/-- What the branches have written is the same in any order. -/
theorem Walk.Branched.writes_eq_of_perm (hv : v.Valid) (hroom : v.score.Housed)
    (hplain : ∀ step ∈ steps, step.Plain)
    (hdisjoint : steps.Pairwise fun a b => a.properties.Disjoint b.properties)
    (h : Branched setting options v steps furthest w done)
    (h' : Branched setting options v steps' furthest w done') (hperm : steps'.Perm steps)
    (p : String) :
    (done'.2.2.filterMap fun id => (done'.1.score.timeline id).summary.get? p) =
      done.2.2.filterMap fun id => (done.1.score.timeline id).summary.get? p := by
  rw [h'.writes p, h.writes p]
  -- at most one branch has written the property
  refine filterMap_eq_of_perm (hdisjoint.imp_of_mem fun {a b} ha hb hab => ?_) hperm
  by_contra hboth
  rw [not_or] at hboth
  exact hab (mem_properties_of_summary (hplain a ha) hv hroom hboth.1)
    (mem_properties_of_summary (hplain b hb) hv hroom hboth.2)

/-- And so is what is known after them. -/
theorem Walk.Branched.knows_eq_of_perm (h : Branched setting options v steps furthest w done)
    (h' : Branched setting options v steps' furthest w done') (hperm : steps'.Perm steps)
    (p : String) : done'.1.knows p = done.1.knows p := by
  -- a property of some branch was last written there; any other is as before the group
  by_cases hp : ∃ step ∈ steps, p ∈ step.properties
  · obtain ⟨step, hstep, hp⟩ := hp
    rw [h.written step hstep p hp, h'.written step (hperm.mem_iff.2 hstep) p hp]
  · have hnone : ∀ step ∈ steps, p ∉ step.properties := fun step hstep hp' =>
      hp ⟨step, hstep, hp'⟩
    rw [h.untouched p hnone, h'.untouched p fun step hstep => hnone step (hperm.subset hstep)]

end Permutations

/-! ### Any run -/

/-- **Branches that write different properties commute**: with the branches in another order
their blocks are in that order, and show the same otherwise.  The group ends at the same time
and leaves the same known of every property. -/
theorem group_perm {host : Host} {root : ElementId} {tree : Animation ℚ} {setup : Setup ℚ}
    {delegated : InstructionMap ℚ} {sink : List Diagnostic} {steps steps' : List (Animation ℚ)}
    {options : Option (Options ℚ)} {w : Walk ℚ}
    (h : Visit (setup.setting host delegated) tree (.start root setup sink)
      (.group steps options) w)
    (hplain : ∀ step ∈ steps, step.Plain)
    (hdisjoint : steps.Pairwise fun a b => a.properties.Disjoint b.properties)
    (hperm : steps'.Perm steps) :
    let setting := setup.setting host delegated
    let after := fun steps => w.group (bodies setting steps) options
    let blocks := fun steps => w.branchBlocks options (bodies setting steps)
    let shown := fun steps => (blocks steps).map (after steps).score.emitted
    (∀ steps, w.registered (after steps) =
        (blocks steps).flatten ++ [.timeline (after steps).scope.timeline] ∧
      (after steps).score.emitted (w.registered (after steps)) = (shown steps).flatten) ∧
    (steps'.zip (shown steps')).Perm (steps.zip (shown steps)) ∧
    (after steps').currentTime = (after steps).currentTime ∧
    (∀ p, ((after steps').score.known w.timeline.lineage w.scope.element).get? p =
      ((after steps).score.known w.timeline.lineage w.scope.element).get? p) ∧
    (blocks steps).map (Walk.run setting root tree setup sink).score.emitted = shown steps := by
  intro setting after blocks shown
  have hw : w.Valid := h.valid (Walk.valid_start root setup sink)
  have hroom : w.score.Housed := Walk.housed_of_start h.precedes
  have hplain' : ∀ step ∈ steps', step.Plain := fun step hstep => hplain step (hperm.subset hstep)
  have hdisjoint' : steps'.Pairwise fun a b => a.properties.Disjoint b.properties :=
    (hperm.pairwise_iff fun hab => hab.symm).2 hdisjoint
  let done := fun steps => Walk.branches options (bodies setting steps) w.currentTime w
  have hbranched : Walk.Branched setting options w steps w.currentTime w (done steps) :=
    Walk.branched setting options hw hroom hplain hdisjoint w.currentTime hw hroom (.refl w)
      fun _ _ _ _ => rfl
  have hbranched' : Walk.Branched setting options w steps' w.currentTime w (done steps') :=
    Walk.branched setting options hw hroom hplain' hdisjoint' w.currentTime hw hroom (.refl w)
      fun _ _ _ _ => rfl
  have hspared : ∀ steps, Walk.Spared w (done steps).1 := fun steps =>
    (Walk.spared_branches Walk.effect_of_mem_bodies options w.currentTime hw).1
  -- each block shows what its branch would show alone, which no order enters
  have hshown : shown steps = steps.map fun step =>
      (w.insideBranch options (step.body setting)).score.emitted
        (w.registered (w.insideBranch options (step.body setting))) :=
    Walk.emitted_group hplain hdisjoint hw hroom fun _ _ _ => rfl
  refine ⟨fun steps => ⟨Walk.registered_group setting steps options w, ?_⟩, ?_, ?_, fun p => ?_, ?_⟩
  · -- the timeline in which the group goes on has nothing to show yet
    obtain ⟨lineage, own, hnew⟩ := Walk.timeline_group setting steps options hw
    rw [Walk.registered_group]
    refine Score.emitted_blocks (Timeline.not_containsAnimation ?_) _
    show (after steps).timeline.keyframes = _
    rw [hnew]
    rfl
  · have hshown' : shown steps' = steps'.map _ :=
      Walk.emitted_group hplain' hdisjoint' hw hroom fun _ _ _ => rfl
    rw [hshown, hshown', ← List.map_prod_left_eq_zip, ← List.map_prod_left_eq_zip]
    exact hperm.map _
  · have hfurthest : (done steps').2.1 = (done steps).2.1 :=
      hbranched.furthest_eq_of_perm hbranched' hperm
    obtain ⟨lineage, own, hnew⟩ := Walk.timeline_group setting steps options hw
    obtain ⟨lineage', own', hnew'⟩ := Walk.timeline_group setting steps' options hw
    show (after steps').timeline.currentTime = (after steps).timeline.currentTime
    rw [hnew, hnew', hfurthest]
    rfl
  · have hwrites := hbranched.writes_eq_of_perm hw hroom hplain hdisjoint hbranched' hperm p
    have hknows : (done steps').1.knows p = (done steps).1.knows p :=
      hbranched.knows_eq_of_perm hbranched' hperm p
    -- the group asks for the cell of the element in the scope around, which the branches have not
    -- left
    have hcell : ∀ steps, (done steps).1.knows p =
        ((done steps).1.score.known w.timeline.lineage w.scope.element).get? p := by
      intro steps
      rw [Walk.knows, (hspared steps).element]
      exact congrArg (fun lineage => ((done steps).1.score.known lineage w.scope.element).get? p)
        (congrArg Skeleton.lineage (hspared steps).skeleton)
    rw [hcell, hcell] at hknows
    show ((w.group (bodies setting steps') options).score.known _ _).get? p =
      ((w.group (bodies setting steps) options).score.known _ _).get? p
    rw [Walk.known_group Walk.effect_of_mem_bodies options hw p,
      Walk.known_group Walk.effect_of_mem_bodies options hw p]
    exact congrArg₂ _ (congrArg _ (congrArg _ hwrites)) hknows
  · rw [hshown]
    refine Walk.emitted_group hplain hdisjoint hw hroom fun id hge hlt => ?_
    -- nor does anybody until the run ends
    exact h.timeline_eq (Walk.valid_start root setup sink) hge hlt

/-- A branch that fades in, and one that does other things one after another. -/
def sideBySide : List (Animation ℚ) :=
  [fadeIn, .sequence [.animate (.ofDuration 200) (.style (.ofEntries [("q", .number 1)])),
    .style (.ofEntries [("r", .number 0)])] none]

/-- The branches may change places. -/
theorem group_perm_sideBySide :
    let setting := (Setup.standard : Setup ℚ).setting pairHost ∅
    let w := Walk.start ⟨1⟩ .standard []
    let after := fun steps => w.group (bodies setting steps) none
    let shown := fun steps =>
      (w.branchBlocks none (bodies setting steps)).map (after steps).score.emitted
    Visit setting (.group sideBySide none) w (.group sideBySide none) w ∧
      (∀ step ∈ sideBySide, step.Plain) ∧
        (sideBySide.Pairwise fun a b => a.properties.Disjoint b.properties) ∧
          sideBySide.reverse.Perm sideBySide ∧
            (sideBySide.reverse.zip (shown sideBySide.reverse)).Perm
              (sideBySide.zip (shown sideBySide)) ∧
            (after sideBySide.reverse).currentTime = (after sideBySide).currentTime ∧
            ∀ p,
              ((after sideBySide.reverse).score.known w.timeline.lineage w.scope.element).get? p =
                ((after sideBySide).score.known w.timeline.lineage w.scope.element).get? p := by
  intro setting w after shown
  have hvisit : Visit setting (.group sideBySide none) w (.group sideBySide none) w := .here _ _
  have hplain : ∀ step ∈ sideBySide, step.Plain := by
    intro step hstep
    refine ⟨fun q a o hmem => ?_, fun t a hmem => ?_, ?_⟩
    · fin_cases hstep <;> simp [fadeIn, Animation.nodes, nodesOf] at hmem
    · fin_cases hstep <;> simp [fadeIn, Animation.nodes, nodesOf] at hmem
    · fin_cases hstep <;> decide +kernel
  have hdisjoint : sideBySide.Pairwise fun a b => a.properties.Disjoint b.properties := by
    refine List.pairwise_pair.2 fun p hp hq => ?_
    -- the first branch names one property, the second one two others
    have hnames : ∀ p ∈ fadeIn.properties, p ∉ (sideBySide[1]).properties := by decide +kernel
    exact hnames p hp hq
  have hperm : sideBySide.reverse.Perm sideBySide := List.reverse_perm sideBySide
  obtain ⟨-, hblocks, htime, hknown, -⟩ := group_perm hvisit hplain hdisjoint hperm
  exact ⟨hvisit, hplain, hdisjoint, hperm, hblocks, htime, hknown⟩

end Choreography
