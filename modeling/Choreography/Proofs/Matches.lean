/-
Choreography/Proofs/Matches.lean

The matches of a query do not see one another.

The scope of a match is entered where the query stands, and that does not change when another
match is done.  What a match may change is what is known of its own element.  So for an
animation that looks at nothing else (`Walk.Local`) it does not matter which other elements
were matched before: the scope of the match corresponds to the one that is entered when the
element is the only match (`corresponds_insideMatch`).  This holds of every animation in which
there are no queries and staggers (`Animation.local_body`).

Main result: `emitted_queryOver`.
-/
import Choreography.Proofs.Block
import Choreography.Proofs.Stagger
import Choreography.Proofs.Written

namespace Choreography

variable {τ : Type} [Quantity τ]

namespace Walk

/-! ### Queries for given elements -/

/-- What a query does when it has selected elements. -/
def queryOver (body : Body τ) (q : Selection) (options : Option (Options τ))
    (elements : List ElementId) (w : Walk τ) : Walk τ :=
  let (after, furthest, self) :=
    matchesFrom options body elements 0 w.currentTime none (w.openQuery q elements options)
  (after.closeQuery furthest self).after .query

theorem query_eq (setting : Setting τ) (body : Body τ) (q : Selection)
    (options : Option (Options τ)) (w : Walk τ) :
    w.query setting body q options =
      w.queryOver body q options (setting.select w.scope.element q) :=
  rfl

/-- What matches register, match by match. -/
def matchBlocks (options : Option (Options τ)) (body : Body τ) :
    List ElementId → Nat → Walk τ → List (List (Entry τ))
  | [], _, _ => []
  | element :: elements, index, w =>
    let next := leave w.scope (w.insideMatch options body element index)
    w.registered next :: matchBlocks options body elements (index + 1) next

/-- The same for the matches of a query. -/
def queryBlocks (body : Body τ) (q : Selection) (options : Option (Options τ))
    (elements : List ElementId) (w : Walk τ) : List (List (Entry τ)) :=
  matchBlocks options body elements 0 (w.openQuery q elements options)

/-- A body that looks at nothing but what is known of the element of its scope, and finishes
what it has begun. -/
structure Local (body : Body τ) : Prop where
  carries : ∀ key w u, (Correspondence.apart (.cell key) w u).Carries body
  finishes : ∀ w, Finishes w (body w)

theorem Local.effect {body : Body τ} (h : Local body) (w : Walk τ) : Effect w (body w) :=
  (h.finishes w).effect

end Walk

/-- Only queries and staggers look at something else. -/
theorem Animation.local_body {animation : Animation τ}
    (hqueries : ∀ q a o, .query q a o ∉ animation.nodes)
    (hstaggers : ∀ t a, .stagger t a ∉ animation.nodes) (setting : Setting τ) :
    Walk.Local (animation.body setting) := by
  refine ⟨fun key w u => ?_, Walk.Finishes.compositional.body setting animation⟩
  -- each other node does the same in walks that know the same of the element
  refine Animation.tandem (fun _ _ _ => .inl trivial) fun node hnode => ?_
  refine Correspondence.allows_of_applies (fun _ _ _ => trivial)
    (fun step _ => .of_exact (x := .cell key) trivial step) ?_ ?_
  · rintro q a o rfl
    exact absurd hnode (hqueries q a o)
  · rintro t a rfl
    exact absurd hnode (hstaggers t a)

namespace Walk

section Match

variable {body : Body τ} {options : Option (Options τ)} {w u : Walk τ}

/-! ### One match -/

theorem alike_indexed (index : Nat) (w : Walk τ) : Alike w (w.indexed index) :=
  ⟨rfl, rfl, rfl, rfl, rfl⟩

theorem effect_leave_insideMatch (hl : Local body) (options : Option (Options τ))
    (element : ElementId) (index : Nat) (w : Walk τ) :
    Effect w (leave w.scope (w.insideMatch options body element index)) :=
  .leave (u := w.indexed index) rfl rfl rfl (effect_insideMatch hl.effect options element index w)

/-- It does not matter at which position, and after which other matches, an element is
matched. -/
theorem corresponds_insideMatch (hl : Local body) (options : Option (Options τ)) (hw : w.Valid)
    (hu : u.Valid) (h : w.Alike u) (hroom : w.score.Housed) (hroom' : u.score.Housed)
    {element : ElementId}
    (hsame : u.score.shared.get? (w.timeline.lineage, element) =
      w.score.shared.get? (w.timeline.lineage, element)) (i j : Nat) :
    (w.insideMatch options body element i).Corresponds
      (.apart (.cell (w.timeline.lineage, element)) (w.indexed i) (u.indexed j))
      (u.insideMatch options body element j) := by
  -- the element is all that is in common, so nothing else has to agree
  have hshares : ∀ lineage e, (Extent.cell (w.timeline.lineage, element)).Covers (lineage, e) →
      w.score.Shares (.cell (w.timeline.lineage, element)) u.score lineage e := by
    rintro lineage e hkey
    cases hkey
    have hknown : u.score.known w.timeline.lineage element =
        w.score.known w.timeline.lineage element := by
      rw [Score.known, Score.known, hsame]
    refine ⟨?_, .inl trivial, ?_⟩
    · rw [← OrderedMap.get?_isSome, ← OrderedMap.get?_isSome, hsame]
    · rw [hknown]
      exact .refl _ _
  -- the index is set in both scopes, and a body without staggers does not ask for it
  have halike : (w.indexed i).Alike (u.indexed j) :=
    ((alike_indexed i w).symm.trans h).trans (alike_indexed j u)
  have henter := corresponds_enter_apart (x := .cell (w.timeline.lineage, element)) id
    (hw.of_eq (u := w.indexed i) rfl rfl rfl) (hu.of_eq (u := u.indexed j) rfl rfl rfl) halike
    hroom hroom' options rfl hshares
  have hopen := tandem_delay (c := .apart (.cell (w.timeline.lineage, element)) (w.indexed i)
    (u.indexed j)) (delayOf options) ((w.indexed i).enter options element)
      ((u.indexed j).enter options element)
  have hinside := (hopen.trans (hl.carries _ _ _ _ _)).trans (tandem_flush _ _)
  exact (hinside.keeps henter (.inl trivial) trivial).1

/-- A match leaves alone what is known of other elements. -/
theorem get?_insideMatch (hl : Local body) (hw : w.Valid) (hroom : w.score.Housed)
    (element : ElementId) (index : Nat) {key : Nat × ElementId}
    (hkey : key ≠ (w.timeline.lineage, element)) :
    (w.insideMatch options body element index).score.shared.get? key =
      w.score.shared.get? key :=
  -- by the correspondence of the match with itself, which spares all other cells
  (corresponds_insideMatch hl options hw hw (.refl w) hroom hroom rfl index
    index).score.spares.cells key hkey

/-- The timelines of a match are settled when it is done. -/
theorem settled_insideMatch (hl : Local body) (hw : w.Valid) (hroom : w.score.Housed)
    {element : ElementId} {index : Nat} {id : TimelineId}
    (hid : .timeline id ∈ w.registered (w.insideMatch options body element index)) :
    ((w.insideMatch options body element index).score.timeline id).Settled := by
  obtain ⟨hge, hlt, hcell⟩ := (corresponds_insideMatch hl options hw hw (.refl w) hroom hroom rfl
    index index).mem_registered (w := w.indexed index) hid
  let entered := (w.indexed index).enter options element
  have hline : entered.scope.timeline = w.score.timelines.length := enter_timeline _ _ _
  have hlength : entered.score.timelines.length = w.score.timelines.length + 1 :=
    enter_length _ _ _
  rcases Nat.eq_or_lt_of_le hge with hfirst | hlater
  · -- nothing waits on the first one
    left
    have hdone : Finishes entered (body (w.openMatch options element index)) :=
      (Finishes.compositional.delay (delayOf options) entered).trans (hl.finishes _)
    have hnone := hdone.pending_flush (hline ▸ hlength ▸ Nat.lt_succ_self _)
    rw [hline] at hnone
    rw [← hfirst]
    exact hnone
  · -- the others have a memory of their own
    right
    have heffect := effect_insideMatch hl.effect options element index w
    refine heffect.precedes.remembers (hlength ▸ hlater) hlt ?_
    rw [hcell]
    exact contains_enter_self hw options element

/-! ### One match after another -/

theorem registered_matchesFrom (hl : Local body) (elements : List ElementId) (index : Nat)
    (furthest : τ) (self : Option TimelineId) (w : Walk τ) :
    w.registered (matchesFrom options body elements index furthest self w).1 =
      (matchBlocks options body elements index w).flatten := by
  -- on the matches: what is registered in two parts of a walk is registered one after the other
  induction elements generalizing w index furthest self with
  | nil => exact List.drop_length
  | cons element elements ih =>
    rw [matchBlocks, List.flatten_cons, ← ih]
    exact registered_trans (effect_leave_insideMatch hl options element index w).precedes
      (Effect.compositional.matchesFrom hl.effect options elements _ _ _ _).precedes

/-- What the matches register shows the same as if each of them were done first, from walks
that are alike and know the same of the elements. -/
theorem emitted_matchBlocks (hl : Local body) (hu : u.Valid) (hroom' : u.score.Housed)
    {elements : List ElementId} (hnodup : elements.Nodup) (hw : w.Valid) (hroom : w.score.Housed)
    (h : w.Alike u) (hsame : ∀ e ∈ elements, u.score.shared.get? (w.timeline.lineage, e) =
      w.score.shared.get? (w.timeline.lineage, e)) (index : Nat) (furthest : τ)
    (self : Option TimelineId) {s : Score τ}
    (hs : ∀ id, w.score.timelines.length ≤ id →
      id < (matchesFrom options body elements index furthest self w).1.score.timelines.length →
        s.timeline id =
          (matchesFrom options body elements index furthest self w).1.score.timeline id) :
    (matchBlocks options body elements index w).map s.emitted =
      elements.map fun e => (u.insideMatch options body e 0).score.emitted
        (u.registered (u.insideMatch options body e 0)) := by
  -- on the matches; the walk is arbitrary, as each match leads to another one that is like it
  induction elements generalizing w index furthest self with
  | nil => rfl
  | cons element elements ih =>
    rw [List.nodup_cons] at hnodup
    rw [List.forall_mem_cons] at hsame
    let inside := w.insideMatch options body element index
    let next := leave w.scope inside
    have hinside := corresponds_insideMatch hl options hw hu h hroom hroom' hsame.1 index 0
    have hnext : Effect w next := effect_leave_insideMatch hl options element index w
    have hrest : Effect next (matchesFrom options body (element :: elements) index furthest self
        w).1 := Effect.compositional.matchesFrom hl.effect options elements _ _ _ _
    have hhead : s.emitted (w.registered next) =
        (u.insideMatch options body element 0).score.emitted
          (u.registered (u.insideMatch options body element 0)) := by
      refine hinside.emitted_eq (w := w.indexed index)
        (fun id hid => settled_insideMatch hl hw hroom hid) fun id hge hlt => ?_
      -- nobody comes back to the timelines of the match
      rw [hs id hge (Nat.lt_of_lt_of_le hlt hrest.length_le)]
      exact hrest.timeline_eq hlt (Nat.ne_of_gt (Nat.lt_of_lt_of_le hw.timeline hge))
    have halike : w.Alike next :=
      alike_leave (u := w.indexed index) hw rfl rfl
        (effect_insideMatch hl.effect options element index w)
    have hsame' : ∀ e ∈ elements, u.score.shared.get? (next.timeline.lineage, e) =
        next.score.shared.get? (next.timeline.lineage, e) := by
      intro e he
      -- elements are matched once, so this match has not touched what is known of the others
      have hne : (w.timeline.lineage, e) ≠ (w.timeline.lineage, element) :=
        fun heq => hnodup.1 ((Prod.mk.inj heq).2 ▸ he)
      rw [halike.lineage_eq, hsame.2 e he]
      exact (get?_insideMatch hl hw hroom element index hne).symm
    have htail := ih hnodup.2 (hnext.valid hw) (hnext.precedes.housed hroom) (halike.symm.trans h)
      hsame' _ _ _ fun id hge hlt => hs id (hnext.length_le.trans hge) hlt
    rw [matchBlocks, List.map_cons, List.map_cons]
    exact congrArg₂ List.cons hhead htail

end Match

end Walk

/-! ### Before and after the matches -/

namespace Scene

theorem keyframes_merge (s : Scene τ) (other : Timeline τ) :
    (s.merge other).timeline.keyframes = s.timeline.keyframes := by
  rw [timeline_merge]

theorem keyframes_snapshot (s : Scene τ) :
    s.snapshot.timeline.keyframes = s.timeline.keyframes := by
  rw [timeline_snapshot]

end Scene

namespace Walk

section Query

variable {body : Body τ} {options : Option (Options τ)} {w : Walk τ}

/-- The matches start from the same styles, however many there are. -/
theorem openQuery_alike (q : Selection) (elements elements' : List ElementId)
    (options : Option (Options τ)) (w : Walk τ) :
    (w.openQuery q elements options).Alike (w.openQuery q elements' options) ∧
      (w.openQuery q elements' options).score = (w.openQuery q elements options).score := by
  unfold openQuery
  dsimp only
  split <;> split <;> exact ⟨⟨rfl, rfl, rfl, rfl, rfl⟩, rfl⟩

theorem order_openQuery (q : Selection) (elements : List ElementId) (w : Walk τ) :
    (w.openQuery q elements options).score.order = w.score.order := by
  -- to hold styles lists nothing, whether or not there is a delay
  have hhold : (w.holdStyles (delayOf options)).score.order = w.score.order := by
    unfold holdStyles
    split <;> rfl
  rw [← hhold]
  unfold openQuery
  dsimp only
  split <;> rfl

/-- After the matches the query goes on in a new timeline. -/
theorem closeQuery_line (furthest : τ) (self : Option TimelineId) (w : Walk τ) :
    (w.closeQuery furthest self).scope.timeline = w.score.timelines.length ∧
      (w.closeQuery furthest self).score.order =
        w.score.order ++ [.timeline w.score.timelines.length] := by
  have hrenew := Score.order_fork w.score w.scope.timeline w.scope.element (some furthest)
  have hline := Score.fork_fst w.score w.scope.timeline w.scope.element (some furthest)
  -- without a match for the element itself there is nothing to merge
  cases self with
  | none => exact ⟨hline, hrenew⟩
  | some id =>
    refine ⟨hline, ?_⟩
    refine Eq.trans ?_ hrenew
    exact order_merge _ _ _

/-- And that has nothing to show yet. -/
theorem closeQuery_not_animated (furthest : τ) (self : Option TimelineId) (w : Walk τ) :
    (w.closeQuery furthest self).timeline.containsAnimation = false := by
  refine Timeline.not_containsAnimation ?_
  let back : Walk τ := { w with scope := { w.scope with index := 0, total := 0 } }
  obtain ⟨lineage, own, hnew⟩ := timeline_renew (some furthest) back
  have hkeyframes : (back.renew (some furthest)).timeline.keyframes = [⟨0, none, ∅⟩] := by
    rw [hnew]
    rfl
  cases self with
  | none => exact hkeyframes
  | some id =>
    let merged : Walk τ := { back.renew (some furthest) with
      score := (back.renew (some furthest)).score.merge
        (back.renew (some furthest)).scope.timeline id }
    have hmerged : merged.timeline.keyframes = [⟨0, none, ∅⟩] := by
      -- a merge changes what waits and what is known, and no keyframe
      show ((back.renew (some furthest)).score.merge _ id |>.timeline _).keyframes = _
      unfold Score.merge
      split
      · exact hkeyframes
      · exact Score.timeline_edit_induct (P := fun t => t.keyframes = [⟨0, none, ∅⟩])
          (fun h => (Scene.keyframes_merge _ _).trans h) hkeyframes
    show (merged.edit Scene.snapshot).timeline.keyframes = _
    exact Score.timeline_edit_induct (P := fun t => t.keyframes = [⟨0, none, ∅⟩])
      (fun h => (Scene.keyframes_snapshot _).trans h) hmerged

/-! ### A query as a whole -/

theorem effect_queryOver (body : Body τ) (q : Selection) (elements : List ElementId) :
    Effect (matchesFrom options body elements 0 w.currentTime none
      (w.openQuery q elements options)).1 (w.queryOver body q options elements) :=
  (Effect.compositional.closeQuery _ _ _).trans (Effect.compositional.after .query _)

/-- A query registers its matches, and the timeline in which it goes on. -/
theorem registered_queryOver (hl : Local body) (q : Selection) (elements : List ElementId) :
    w.registered (w.queryOver body q options elements) =
      (w.queryBlocks body q options elements).flatten ++
        [.timeline (w.queryOver body q options elements).scope.timeline] := by
  let opened := w.openQuery q elements options
  let done := matchesFrom options body elements 0 w.currentTime none opened
  obtain ⟨hline, horder⟩ := closeQuery_line done.2.1 done.2.2 done.1
  have hopened : w.registered (w.queryOver body q options elements) =
      opened.registered (w.queryOver body q options elements) := by
    rw [registered, registered, order_openQuery]
  -- after the matches only the new timeline is listed
  have hclosed : done.1.registered (w.queryOver body q options elements) =
      [.timeline done.1.score.timelines.length] := by
    show (done.1.closeQuery done.2.1 done.2.2).score.order.drop done.1.score.order.length = _
    rw [horder]
    exact List.drop_left
  rw [hopened, registered_trans (Effect.compositional.matchesFrom hl.effect options elements 0 _
    none opened).precedes (effect_queryOver body q elements).precedes, hclosed,
    registered_matchesFrom hl]
  show _ = _ ++ [Entry.timeline (done.1.closeQuery done.2.1 done.2.2).scope.timeline]
  rw [hline]
  rfl

/-- What the matches of a query show in the end is what each of them shows if it is the only
one. -/
theorem emitted_queryBlocks (hl : Local body) (hw : w.Valid) (hroom : w.score.Housed)
    (q : Selection) (options : Option (Options τ)) {elements : List ElementId}
    (hnodup : elements.Nodup) {s : Score τ}
    (hs : ∀ id, w.score.timelines.length ≤ id →
      id < (w.queryOver body q options elements).scope.timeline →
        s.timeline id = (w.queryOver body q options elements).score.timeline id) :
    (w.queryBlocks body q options elements).map s.emitted = elements.map fun e =>
      ((w.openQuery q [e] options).insideMatch options body e 0).score.emitted
        ((w.openQuery q [e] options).registered
          ((w.openQuery q [e] options).insideMatch options body e 0)) := by
  let opened := w.openQuery q elements options
  let done := matchesFrom options body elements 0 w.currentTime none opened
  have hopen : ∀ es, Effect w (w.openQuery q es options) :=
    fun es => Effect.compositional.openQuery q es options w
  -- a query with a single match is opened alike, whichever element that is for
  obtain ⟨halike, hscore⟩ := openQuery_alike q elements [default] options w
  have hspared : done.1.scope.timeline = opened.scope.timeline :=
    (spared_matchesFrom hl.effect options elements 0 _ none ((hopen elements).valid hw)).line
  have hline : (w.queryOver body q options elements).scope.timeline =
      done.1.score.timelines.length := (closeQuery_line done.2.1 done.2.2 done.1).1
  refine emitted_matchBlocks hl ((hopen [default]).valid hw) ((hopen [default]).precedes.housed
    hroom) hnodup ((hopen elements).valid hw) ((hopen elements).precedes.housed hroom) halike
      (fun e _ => by rw [hscore]) 0 w.currentTime none fun id hge hlt => ?_
  have hge' : w.score.timelines.length ≤ id := (hopen elements).length_le.trans hge
  rw [hs id hge' (hline ▸ hlt)]
  -- nobody comes back to the timelines of the matches
  refine (effect_queryOver body q elements).timeline_eq hlt ?_
  rw [hspared]
  exact Nat.ne_of_gt (Nat.lt_of_lt_of_le ((hopen elements).valid hw).timeline hge)

end Query

end Walk

/-! ### Any run -/

/-- **Matches are independent**: what a match registers shows the same as if its element were
the only one that the query has selected, and a query shows no more than its matches do.  So
with the matches in another order their blocks are in that order, and the same otherwise.  In a
run of the tree the blocks stay as they are until it ends. -/
theorem emitted_queryOver {host : Host} {root : ElementId} {tree : Animation τ} {setup : Setup τ}
    {delegated : InstructionMap τ} {sink : List Diagnostic} {q : Selection}
    {animation : Animation τ} {options : Option (Options τ)} {w : Walk τ}
    (h : Visit (setup.setting host delegated) tree (.start root setup sink)
      (.query q animation options) w)
    (hqueries : ∀ q a o, .query q a o ∉ animation.nodes)
    (hstaggers : ∀ t a, .stagger t a ∉ animation.nodes) :
    let setting := setup.setting host delegated
    let after := fun elements => w.queryOver (animation.body setting) q options elements
    let blocks := fun elements => w.queryBlocks (animation.body setting) q options elements
    let shown := fun elements => (blocks elements).map (after elements).score.emitted
    let alone := fun e => (after [e]).score.emitted (w.registered (after [e]))
    (∀ elements : List ElementId, elements.Nodup →
      w.registered (after elements) =
          (blocks elements).flatten ++ [.timeline (after elements).scope.timeline] ∧
        shown elements = elements.map alone ∧
        (after elements).score.emitted (w.registered (after elements)) = elements.flatMap alone ∧
        ∀ elements' : List ElementId, elements'.Perm elements →
          (elements'.zip (shown elements')).Perm (elements.zip (shown elements))) ∧
      ((setting.select w.scope.element q).Nodup →
        (blocks (setting.select w.scope.element q)).map
            (Walk.run setting root tree setup sink).score.emitted =
          (setting.select w.scope.element q).map alone) := by
  intro setting after blocks shown alone
  have hl : Walk.Local (animation.body setting) :=
    Animation.local_body hqueries hstaggers setting
  have hw : w.Valid := h.valid (Walk.valid_start root setup sink)
  have hroom : w.score.Housed := Walk.housed_of_start h.precedes
  -- what a query shows is what its matches show
  have hwhole : ∀ elements, (after elements).score.emitted (w.registered (after elements)) =
      (shown elements).flatten := by
    intro elements
    rw [Walk.registered_queryOver hl]
    exact Score.emitted_blocks (Walk.closeQuery_not_animated _ _ _) _
  have hblocks : ∀ {elements : List ElementId} {s : Score τ}, elements.Nodup →
      (∀ id, w.score.timelines.length ≤ id → id < (after elements).scope.timeline →
        s.timeline id = (after elements).score.timeline id) →
          (blocks elements).map s.emitted = elements.map alone := by
    intro elements s hnodup hs
    rw [Walk.emitted_queryBlocks hl hw hroom q options hnodup hs]
    refine List.map_congr_left fun e _ => ?_
    -- the same for a query that has selected this element alone
    have hone := Walk.emitted_queryBlocks hl hw hroom q options (List.nodup_singleton e)
      (s := (after [e]).score) fun _ _ _ => rfl
    show _ = (after [e]).score.emitted (w.registered (after [e]))
    rw [hwhole]
    show _ = ((blocks [e]).map (after [e]).score.emitted).flatten
    rw [hone]
    exact (List.append_nil _).symm
  have hshown : ∀ {elements : List ElementId}, elements.Nodup →
      shown elements = elements.map alone := fun hnodup => hblocks hnodup fun _ _ _ => rfl
  refine ⟨fun elements hnodup => ⟨Walk.registered_queryOver hl q elements, hshown hnodup, ?_,
    fun elements' hperm => ?_⟩, fun hnodup => hblocks hnodup fun id hge hlt => ?_⟩
  · rw [hwhole, hshown hnodup]
    rfl
  · rw [hshown hnodup, hshown (hperm.nodup_iff.2 hnodup), ← List.map_prod_left_eq_zip,
      ← List.map_prod_left_eq_zip]
    exact hperm.map _
  · have hquery : (Animation.query q animation options).body setting w =
        after (setting.select w.scope.element q) :=
      Walk.query_eq setting (animation.body setting) q options w
    rw [← hquery] at hlt ⊢
    -- nobody comes back to its timelines until the run ends either
    exact h.timeline_eq (Walk.valid_start root setup sink) hge hlt

/-- An element and two others fade in, of which each would do the same alone. -/
theorem emitted_queryOver_fading :
    let setting := (Setup.standard : Setup ℚ).setting pairHost ∅
    let q := Selection.ofWritten ":self, .item"
    let w := Walk.start ⟨1⟩ .standard []
    let after := fun elements => w.queryOver (fadeIn.body setting) q none elements
    let alone := fun e => (after [e]).score.emitted (w.registered (after [e]))
    Visit setting (.query q fadeIn none) w (.query q fadeIn none) w ∧
      (∀ q a o, .query q a o ∉ fadeIn.nodes) ∧ (∀ t a, .stagger t a ∉ fadeIn.nodes) ∧
        (after [⟨11⟩, ⟨1⟩, ⟨10⟩]).score.emitted (w.registered (after [⟨11⟩, ⟨1⟩, ⟨10⟩])) =
          [⟨11⟩, ⟨1⟩, ⟨10⟩].flatMap alone ∧
        (alone ⟨10⟩).map Instruction.element = [⟨10⟩] := by
  intro setting q w after alone
  have hvisit : Visit setting (.query q fadeIn none) w (.query q fadeIn none) w := .here _ _
  have hqueries : ∀ q a o, .query q a o ∉ fadeIn.nodes := by
    intro q a o hmem
    simp [fadeIn, Animation.nodes] at hmem
  have hstaggers : ∀ t a, .stagger t a ∉ fadeIn.nodes := by
    intro t a hmem
    simp [fadeIn, Animation.nodes] at hmem
  obtain ⟨hall, -⟩ := emitted_queryOver hvisit hqueries hstaggers
  obtain ⟨-, -, hshown, -⟩ := hall [⟨11⟩, ⟨1⟩, ⟨10⟩] (by decide)
  exact ⟨hvisit, hqueries, hstaggers, hshown, by decide +kernel⟩

end Choreography
