/-
Choreography/Proofs/Gather.lean

What a group leaves known of a property.

The branches write into what is known of the element while they run.  When all are done,
the timeline of the group takes over what the timelines on which the branches have ended
wrote later than itself, one after another.  A write that is taken over counts from then
on as one of its own, made when the clock stood where it stands
(`Standing.takeOver`), and the clock stands where the group began.  So the second branch
is not compared with the first, and of the writes after the beginning of the group the
last one in the order of the branches prevails, whatever its time
(`Standing.known_foldl_takeOver`).

`keepsLatest_iff` says what is known of a property after any group of any run, and hence
when it is the value of the latest write.  It is not if an earlier branch takes longer
(`crossing`).  Nor is it if a branch writes at the very time of an earlier write on the
timeline of the group (`tied`): then nothing is taken over, but the branch has already
written into what is known of the element.
-/
import Choreography.Animation.Build
import Choreography.Proofs.Run
import Choreography.Proofs.Styles
import Choreography.Quantity.Exact

namespace Choreography

variable {τ : Type} [Quantity τ]

/-! ### Taking over a write -/

/-- What a timeline has of a property: its own last write, and the value known of the
element. -/
@[ext] structure Standing (τ : Type) where
  own : Option (StyleAtTime τ)
  known : Option (StyleValue τ)

/-- Whether a timeline gives way to a write: it has made none itself, or an earlier one. -/
def yields (own : Option (StyleAtTime τ)) (theirs : StyleAtTime τ) : Bool :=
  own.all fun ours => decide (ours.time < theirs.time)

namespace Standing

/-- Takes over a write, unless there is one of one's own at that time or later. -/
def takeOver (clock : τ) (s : Standing τ) (theirs : StyleAtTime τ) : Standing τ :=
  if yields s.own theirs then ⟨some ⟨clock, theirs.value⟩, some theirs.value⟩ else s

/-- The write that prevails when several are taken over: the last one that is later than
the clock, among those after the first one that is taken over; or that one. -/
def prevailing (clock : τ) (own : Option (StyleAtTime τ)) (writes : List (StyleAtTime τ)) :
    Option (StyleAtTime τ) :=
  match writes.dropWhile fun r => !yields own r with
  | [] => none
  | first :: rest => some ((rest.filter fun r => decide (clock < r.time)).getLast?.getD first)

/-- After the first take-over everything is compared with the clock. -/
theorem known_foldl_stamped (clock : τ) (writes : List (StyleAtTime τ)) (r : StyleAtTime τ) :
    (writes.foldl (takeOver clock) ⟨some ⟨clock, r.value⟩, some r.value⟩).known =
      some ((writes.filter fun r => decide (clock < r.time)).getLast?.getD r).value := by
  -- on the writes; the last one that was taken over changes along the way
  induction writes generalizing r with
  | nil => rfl
  | cons theirs rest ih =>
    by_cases h : clock < theirs.time
    · have hstep : takeOver clock ⟨some ⟨clock, r.value⟩, some r.value⟩ theirs =
          ⟨some ⟨clock, theirs.value⟩, some theirs.value⟩ := by
        simp [takeOver, yields, h]
      rw [List.foldl_cons, hstep, ih, List.filter_cons_of_pos (by simpa using h),
        List.getLast?_cons]
      rfl
    · have hstep : takeOver clock ⟨some ⟨clock, r.value⟩, some r.value⟩ theirs =
          ⟨some ⟨clock, r.value⟩, some r.value⟩ := by
        simp [takeOver, yields, h]
      rw [List.foldl_cons, hstep, ih, List.filter_cons_of_neg (by simpa using h)]

/-- What is known when several writes have been taken over. -/
theorem known_foldl_takeOver (clock : τ) (s : Standing τ) (writes : List (StyleAtTime τ)) :
    (writes.foldl (takeOver clock) s).known =
      ((prevailing clock s.own writes).map StyleAtTime.value).or s.known := by
  induction writes with
  | nil => rfl
  | cons r rest ih =>
    -- the first write that is taken over sets the clock, and what comes before it is dropped
    by_cases h : yields s.own r
    · have hstep : takeOver clock s r = ⟨some ⟨clock, r.value⟩, some r.value⟩ := if_pos h
      have hdrop : (r :: rest).dropWhile (fun r => !yields s.own r) = r :: rest := by
        rw [List.dropWhile_cons_of_neg]
        simp [h]
      rw [List.foldl_cons, hstep, known_foldl_stamped, prevailing, hdrop]
      rfl
    · have hstep : takeOver clock s r = s := if_neg h
      have hdrop : (r :: rest).dropWhile (fun r => !yields s.own r) =
          rest.dropWhile fun r => !yields s.own r := by
        rw [List.dropWhile_cons_of_pos]
        simp [h]
      rw [List.foldl_cons, hstep, ih, prevailing, prevailing, hdrop]

end Standing

/-! ### Merging, property by property -/

namespace Scene

/-- What the timeline of a scene has of a property. -/
def standing (s : Scene τ) (p : String) : Standing τ :=
  ⟨s.timeline.summary.get? p, s.shared.get? p⟩

theorem standing_noteIfNewer (s : Scene τ) (q : String) (theirs : StyleAtTime τ) (p : String) :
    (s.noteIfNewer q theirs).standing p =
      if p = q then (s.standing p).takeOver s.timeline.currentTime theirs else s.standing p := by
  have hnote : (s.note q theirs.value).standing p =
      if p = q then ⟨some ⟨s.timeline.currentTime, theirs.value⟩, some theirs.value⟩
      else s.standing p := by
    simp only [standing, note, OrderedMap.get?_insert]
    split <;> rfl
  -- another property is left alone, be the write newer or not
  by_cases hpq : p = q
  · subst hpq
    rw [if_pos rfl] at hnote ⊢
    have hown : (s.standing p).own = s.timeline.summary.get? p := rfl
    rw [Standing.takeOver, yields, hown, ← hnote]
    unfold noteIfNewer
    cases h : s.timeline.summary.get? p with
    | none => simp
    | some ours =>
      by_cases ht : ours.time < theirs.time
      · simp [ht]
      · simp [ht]
  · rw [if_neg hpq] at hnote ⊢
    unfold noteIfNewer
    split
    · exact hnote
    · split
      · exact hnote
      · rfl

/-- Merging takes over the other timeline's last write of the property, if there is one. -/
theorem standing_merge (s : Scene τ) (other : Timeline τ) (p : String) :
    (s.merge other).standing p =
      (other.summary.get? p).toList.foldl (Standing.takeOver s.timeline.currentTime)
        (s.standing p) := by
  unfold merge OrderedMap.get?
  have hnodup := other.summary.nodup
  -- the entries are fixed, for the merge changes the scene and not the other timeline
  generalize other.summary.entries = entries at hnodup
  induction entries generalizing s with
  | nil => rfl
  | cons entry rest ih =>
    rw [List.map_cons, List.nodup_cons] at hnodup
    have htime : (s.noteIfNewer entry.1 entry.2).timeline.currentTime = s.timeline.currentTime :=
      Timeline.currentTime_eq_of_skeleton_eq (skeleton_noteIfNewer s _ _)
    rw [List.foldl_cons, ih _ hnodup.2, standing_noteIfNewer, htime]
    by_cases hp : p = entry.1
    · -- the property does not occur again
      have hnone : rest.find? (fun e => decide (e.1 = p)) = none := by
        rw [List.find?_eq_none]
        intro e he heq
        exact hnodup.1 (List.mem_map.2 ⟨e, he, by simpa [hp] using heq⟩)
      simp [hp ▸ hnone, hp]
    · simp [hp, Ne.symm hp]

omit [Quantity τ] in
@[simp] theorem shared_flush (s : Scene τ) : s.flush.shared = s.shared := by
  unfold flush
  split <;> rfl

end Scene

/-! ### Merging several timelines -/

namespace Score

/-- Several timelines are merged one after another, as they are now. -/
theorem standing_foldl_merge {s : Score τ} {into : TimelineId} {ids : List TimelineId}
    (hinto : into < s.timelines.length) (hids : ∀ id ∈ ids, into ≠ id) (p : String) :
    ((ids.foldl (fun s id => s.merge into id) s).scene into).standing p =
      (ids.filterMap fun id => (s.timeline id).summary.get? p).foldl
        (Standing.takeOver (s.timeline into).currentTime) ((s.scene into).standing p) := by
  induction ids generalizing s with
  | nil => rfl
  | cons id ids ih =>
    rw [List.forall_mem_cons] at hids
    have hmerge : s.merge into id = s.edit into (Scene.merge (s.timeline id)) := if_neg hids.1
    have hscene : (s.merge into id).scene into = (s.scene into).merge (s.timeline id) := by
      rw [hmerge]
      exact scene_edit_self (Scene.owner_merge _ _) hinto
    have hclock : ((s.merge into id).timeline into).currentTime = (s.timeline into).currentTime := by
      show ((s.merge into id).scene into).timeline.currentTime = _
      rw [hscene]
      exact Timeline.currentTime_eq_of_skeleton_eq (Scene.skeleton_merge _ _)
    -- the timelines that are still to be merged are as they were
    have hothers : ids.filterMap (fun id' => ((s.merge into id).timeline id').summary.get? p) =
        ids.filterMap fun id' => (s.timeline id').summary.get? p := by
      apply List.filterMap_congr
      intro id' hid'
      rw [hmerge, timeline_edit_of_ne _ (hids.2 id' hid')]
    have hlength : into < (s.merge into id).timelines.length := by
      rw [hmerge, length_timelines_edit]
      exact hinto
    rw [List.foldl_cons, ih hlength hids.2, hclock, hothers, hscene, Scene.standing_merge]
    cases h : (s.timeline id).summary.get? p with
    | none => simp [h]
    | some r =>
      simp only [Option.toList_some, List.foldl_cons, List.foldl_nil, List.filterMap_cons, h]
      rfl

theorem known_edit {s : Score τ} {id : TimelineId} {f : Scene τ → Scene τ}
    (hf : (f (s.scene id)).shared = (s.scene id).shared) (lineage : Nat) (element : ElementId) :
    (s.edit id f).known lineage element = s.known lineage element := by
  rw [edit, known_put]
  split
  · rename_i h
    obtain ⟨rfl, rfl⟩ := Prod.mk.inj h
    exact hf
  · rfl

/-- A timeline shares what is known of its element in its lineage. -/
theorem shared_scene {s : Score τ} {id : TimelineId} {t : Timeline τ}
    (h : (s.timeline id).owner = t.owner) :
    (s.scene id).shared = s.known t.lineage t.element := by
  have hlineage : (s.timeline id).lineage = t.lineage := congrArg (fun o => o.1) h
  have helement : (s.timeline id).element = t.element := congrArg (fun o => o.2.1) h
  show s.known (s.timeline id).lineage (s.timeline id).element = _
  rw [hlineage, helement]

/-- Forking does not change what is known. -/
theorem known_fork (s : Score τ) (id : TimelineId) (element : ElementId) (at? : Option τ)
    (lineage : Nat) (element' : ElementId) :
    (s.fork id element at?).2.known lineage element' = s.known lineage element' := by
  rw [fork_eq, known_enter, known_edit (Scene.shared_flush _)]

end Score

namespace Walk

/-! ### Groups -/

/-- What is known of a property of the element after a group. -/
theorem known_group {steps : List (Body τ)} (hb : ∀ b ∈ steps, ∀ w, Effect w (b w))
    (options : Option (Options τ)) {w : Walk τ} (hv : w.Valid) (p : String) :
    let done := branches options steps w.currentTime w
    ((w.group steps options).score.known w.timeline.lineage w.scope.element).get? p =
      ((Standing.prevailing w.currentTime (w.timeline.summary.get? p)
        (done.2.2.filterMap fun id => (done.1.score.timeline id).summary.get? p)).map
          StyleAtTime.value).or ((done.1.score.known w.timeline.lineage w.scope.element).get? p) := by
  intro done
  obtain ⟨hspared, hids⟩ := spared_branches hb options w.currentTime hv
  have hdone : done.1.Valid := (Effect.compositional.branches hb options w.currentTime w).valid hv
  have howner : done.1.timeline.owner = w.timeline.owner :=
    Timeline.owner_eq_of_skeleton_eq hspared.skeleton
  -- the timeline of the group is the same one after the merges, so it shares the same cell
  have hgathered : ((done.1.gather done.2.2).score.timeline done.1.scope.timeline).owner =
      w.timeline.owner :=
    ((Effect.compositional.gather done.2.2 done.1).owner_eq hdone.timeline).trans howner
  have hshared : ((done.1.score.scene done.1.scope.timeline).standing p).known =
      (done.1.score.known w.timeline.lineage w.scope.element).get? p := by
    rw [← hv.element, ← Score.shared_scene howner]
    rfl
  -- the branches have written nothing on the timeline of the group
  have hown : ((done.1.score.scene done.1.scope.timeline).standing p).own =
      w.timeline.summary.get? p := by
    rw [← hspared.summary]
    rfl
  have hclock : (done.1.score.timeline done.1.scope.timeline).currentTime = w.currentTime :=
    hspared.currentTime_eq
  -- the merges, as one take-over after another
  have hmerged := Score.standing_foldl_merge hdone.timeline
    (fun id hid => Nat.ne_of_lt (hspared.line ▸ Nat.lt_of_lt_of_le hv.timeline (hids id hid))) p
  have hknown := congrArg Standing.known hmerged
  rw [Standing.known_foldl_takeOver, hclock, hown, hshared] at hknown
  have hrenew : (w.group steps options).score.known w.timeline.lineage w.scope.element =
      (done.1.gather done.2.2).score.known w.timeline.lineage w.scope.element :=
    Score.known_fork _ _ _ (some done.2.1) _ _
  have hvalue : ((done.1.gather done.2.2).score.known w.timeline.lineage w.scope.element).get? p =
      (((done.1.gather done.2.2).score.scene done.1.scope.timeline).standing p).known := by
    rw [← hv.element, ← Score.shared_scene hgathered]
    rfl
  rw [hrenew, hvalue]
  exact hknown

end Walk

/-! ### The latest write -/

/-- Whether a write is the latest of those on a timeline and on the branches of a group,
where among writes at the same time the timeline comes first, and then the earlier
branch. -/
def IsLatest (own : Option (StyleAtTime τ)) (branches : List (List (StyleAtTime τ)))
    (r : StyleAtTime τ) : Prop :=
  (own = some r ∧ ∀ writes ∈ branches, ∀ other ∈ writes, ¬r.time < other.time) ∨
    ∃ pre writes post, branches = pre ++ writes :: post ∧ r ∈ writes ∧
      (∀ other, own = some other → other.time < r.time) ∧
      (∀ earlier ∈ pre, ∀ other ∈ earlier, other.time < r.time) ∧
      ∀ later ∈ writes :: post, ∀ other ∈ later, ¬r.time < other.time

theorem IsLatest.mem {own : Option (StyleAtTime τ)} {branches : List (List (StyleAtTime τ))}
    {r : StyleAtTime τ} (h : IsLatest own branches r) : r ∈ own.toList ++ branches.flatten := by
  rcases h with ⟨rfl, -⟩ | ⟨pre, writes, post, rfl, hr, -⟩
  · simp
  · simp [hr]

theorem IsLatest.not_lt {own : Option (StyleAtTime ℚ)} {branches : List (List (StyleAtTime ℚ))}
    {r other : StyleAtTime ℚ} (h : IsLatest own branches r)
    (ho : other ∈ own.toList ++ branches.flatten) : ¬r.time < other.time := by
  -- the latest write is that of the timeline or of a branch, and so is the other one
  rcases h with ⟨rfl, hall⟩ | ⟨pre, writes, post, rfl, -, hown, hpre, hpost⟩
  · rcases List.mem_append.1 ho with ho | ho
    · rw [List.mem_singleton.1 ho]
      exact lt_irrefl _
    · obtain ⟨writes, hwrites, ho⟩ := List.mem_flatten.1 ho
      exact hall writes hwrites other ho
  · rcases List.mem_append.1 ho with ho | ho
    · exact (hown other (Option.mem_toList.1 ho)).asymm
    · obtain ⟨others, hothers, ho⟩ := List.mem_flatten.1 ho
      rcases List.mem_append.1 hothers with hothers | hothers
      · exact (hpre others hothers other ho).asymm
      · exact hpost others hothers other ho

namespace Walk

/-- The last writes of a property of the element on the timelines that were entered between
two walks. -/
def writesUntil (p : String) (w w' : Walk τ) : List (StyleAtTime τ) :=
  (w.registered w').filterMap fun
    | .timeline id =>
      if (w'.score.timeline id).element = w.scope.element then
        (w'.score.timeline id).summary.get? p
      else none
    | .placed _ => none

/-- The same for the branches of a group, branch by branch. -/
def branchWrites (p : String) (options : Option (Options τ)) :
    List (Body τ) → Walk τ → List (List (StyleAtTime τ))
  | [], _ => []
  | body :: bodies, w =>
    let next := (w.branch options body w.currentTime).1
    w.writesUntil p next :: branchWrites p options bodies next

/-- Whether a group in which some branch writes a property leaves the value of the latest
write known. -/
def KeepsLatest (bodies : List (Body τ)) (options : Option (Options τ)) (w : Walk τ)
    (p : String) : Prop :=
  (∃ writes ∈ w.branchWrites p options bodies, writes ≠ []) →
    ∃ r, IsLatest (w.timeline.summary.get? p) (w.branchWrites p options bodies) r ∧
      ((w.group bodies options).score.known w.timeline.lineage w.scope.element).get? p =
        some r.value

end Walk

/-- What is known of a property after a group, in any run of any tree; and hence, when it is
the value of the latest write. -/
theorem keepsLatest_iff {host : Host} {root : ElementId} {tree : Animation τ} {setup : Setup τ}
    {delegated : InstructionMap τ} {steps : List (Animation τ)} {options : Option (Options τ)}
    {w : Walk τ}
    (h : Visit (setup.setting host delegated) tree (.start root setup []) (.group steps options) w)
    (p : String) :
    let branches := bodies (setup.setting host delegated) steps
    let done := Walk.branches options branches w.currentTime w
    let ends := done.2.2.filterMap fun id => (done.1.score.timeline id).summary.get? p
    let known := ((Standing.prevailing w.currentTime (w.timeline.summary.get? p) ends).map
      StyleAtTime.value).or ((done.1.score.known w.timeline.lineage w.scope.element).get? p)
    ((w.group branches options).score.known w.timeline.lineage w.scope.element).get? p = known ∧
      (w.KeepsLatest branches options p ↔
        ((∃ writes ∈ w.branchWrites p options branches, writes ≠ []) →
          ∃ r, IsLatest (w.timeline.summary.get? p) (w.branchWrites p options branches) r ∧
            known = some r.value)) := by
  intro branches done ends known
  have hknown : ((w.group branches options).score.known w.timeline.lineage
      w.scope.element).get? p = known :=
    Walk.known_group Walk.effect_of_mem_bodies options (h.valid (Walk.valid_start root setup [])) p
  refine ⟨hknown, ?_⟩
  unfold Walk.KeepsLatest
  rw [hknown]

/-- Two branches that animate the same property, of which the first takes longer. -/
def crossing : List (Animation ℚ) :=
  [.animate (.ofDuration 1000) (.style (.ofEntries [("p", .number 1)])),
    .animate (.ofDuration 500) (.style (.ofEntries [("p", .number 2)]))]

/-- If the branch that takes longer is the last one, then its value is known after the
group. -/
theorem keepsLatest_crossing_reverse :
    let setting := (Setup.standard : Setup ℚ).setting (fun _ _ _ => []) ∅
    let start := Walk.start ⟨1⟩ .standard []
    Visit setting (.group crossing.reverse none) start (.group crossing.reverse none) start ∧
      start.KeepsLatest (bodies setting crossing.reverse) none "p" := by
  intro setting start
  have hvisit : Visit setting (.group crossing.reverse none) start
      (.group crossing.reverse none) start := .here _ _
  refine ⟨hvisit, (keepsLatest_iff hvisit "p").2.2 fun _ => ⟨⟨1000, .literal (.number 1)⟩, ?_, ?_⟩⟩
  · have hwrites : start.branchWrites "p" none (bodies setting crossing.reverse) =
        [[⟨500, .literal (.number 2)⟩], [⟨1000, .literal (.number 1)⟩]] := by
      decide +kernel
    have hown : start.timeline.summary.get? "p" = none := by
      decide +kernel
    rw [hwrites, hown]
    refine .inr ⟨[_], _, [], rfl, List.mem_singleton_self _, ?_, ?_, ?_⟩
    · intro other h
      cases h
    · decide +kernel
    · decide +kernel
  · decide +kernel

/-- If it is the first one, then the value that was written at 500 is known, and not the
one written at 1000. -/
theorem not_keepsLatest_crossing :
    let setting := (Setup.standard : Setup ℚ).setting (fun _ _ _ => []) ∅
    let start := Walk.start ⟨1⟩ .standard []
    ¬start.KeepsLatest (bodies setting crossing) none "p" := by
  intro setting start hkeeps
  have hwrites : start.branchWrites "p" none (bodies setting crossing) =
      [[⟨1000, .literal (.number 1)⟩], [⟨500, .literal (.number 2)⟩]] := by
    decide +kernel
  have hown : start.timeline.summary.get? "p" = none := by
    decide +kernel
  have hvalue : ((start.group (bodies setting crossing) none).score.known start.timeline.lineage
      start.scope.element).get? "p" = some (.literal (.number 2)) := by
    decide +kernel
  obtain ⟨r, hlatest, hknown⟩ := hkeeps (by rw [hwrites]; simp)
  rw [hvalue, Option.some_inj] at hknown
  rw [hwrites, hown] at hlatest
  have hr : r = ⟨500, .literal (.number 2)⟩ := by
    rcases List.mem_cons.1 hlatest.mem with rfl | hr
    · cases hknown
    · exact List.mem_singleton.1 hr
  have hlonger : ¬r.time < 1000 := hlatest.not_lt List.mem_cons_self
  rw [hr] at hlonger
  exact hlonger (by norm_num)

/-- A style, and in a group another one of the same property, at the same time. -/
def tied : List (Animation ℚ) :=
  [.style (.ofEntries [("p", .number 0)]),
    .group [.style (.ofEntries [("p", .number 1)])] none,
    .animate (.ofDuration 100) (.style (.ofEntries [("p", .number 2)]))]

/-- The value that the branch wrote is known after the group, although the timeline of the
group comes first. -/
theorem not_keepsLatest_tied :
    let setting := (Setup.standard : Setup ℚ).setting (fun _ _ _ => []) ∅
    let start := Walk.start ⟨1⟩ .standard []
    ∃ branches w, Visit setting (.sequence tied none) start (.group branches none) w ∧
      ¬w.KeepsLatest (bodies setting branches) none "p" := by
  intro setting start
  let before : List (Animation ℚ) := [.style (.ofEntries [("p", .number 0)])]
  let branches : List (Animation ℚ) := [.style (.ofEntries [("p", .number 1)])]
  let w := (start.openSequence none).follow (bodies setting before)
  have hvisit : Visit setting (.sequence tied none) start (.group branches none) w :=
    @Visit.step ℚ _ setting before _ _ _ _ _ _ (.here _ _)
  refine ⟨branches, w, hvisit, fun hkeeps => ?_⟩
  have hown : w.timeline.summary.get? "p" = some ⟨0, .literal (.number 0)⟩ := by
    decide +kernel
  have hwrites : w.branchWrites "p" none (bodies setting branches) =
      [[⟨0, .literal (.number 1)⟩]] := by
    decide +kernel
  have hvalue : ((w.group (bodies setting branches) none).score.known w.timeline.lineage
      w.scope.element).get? "p" = some (.literal (.number 1)) := by
    decide +kernel
  obtain ⟨r, hlatest, hknown⟩ := hkeeps (by rw [hwrites]; simp)
  rw [hvalue, Option.some_inj] at hknown
  rw [hwrites, hown] at hlatest
  rcases hlatest with ⟨hr, -⟩ | ⟨pre, writes, post, hsplit, hr, hbefore, -, hlater⟩
  · rw [← Option.some_inj.1 hr] at hknown
    cases hknown
  · -- the write in the branch is not later than the one before the group
    have hmem : r ∈ [[(⟨0, .literal (.number 1)⟩ : StyleAtTime ℚ)]].flatten := by
      rw [hsplit]
      simp [hr]
    have hlt := hbefore _ rfl
    rw [List.mem_singleton.1 hmem] at hlt
    exact lt_irrefl _ hlt

end Choreography
