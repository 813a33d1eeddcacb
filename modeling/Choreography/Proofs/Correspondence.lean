/-
Choreography/Proofs/Correspondence.lean

Scenes of two runs side by side.

A tree may be compiled from walks that differ in what does not concern it: all that went
before lies earlier by a constant time, or other properties are known of the element.  What
it does then differs in just this way.  A `Translation` moves the times of one run to those
of the other, and an `Extent` says how much of what is known the two runs have in common.

Scenes correspond if their timelines are the same but for the times, and if they share the
same styles as far as the extent goes (`Scene.Corresponds`).  Every change that reads and
writes no more than that keeps scenes corresponding (`Scene.Carried`), and so do merges.
-/
import Choreography.Proofs.Styles
import Choreography.Timing.Expression

namespace Choreography

/-! ### Moving times -/

/-- A way to move all absolute times of a run. -/
structure Translation (τ : Type) [Quantity τ] where
  time : τ → τ
  /-- Whether all times stay where they are. -/
  still : Prop
  /-- Whether the first time does not lie after the second one. -/
  ahead : τ → τ → Prop
  /-- Whether a span does not turn back a clock. -/
  forth : τ → Prop
  time_of_still : still → ∀ x, time x = x
  time_add : ∀ x y, time (x + y) = time x + y
  add_time : ∀ x y, time (x + y) = x + time y
  time_sub : ∀ x y, time x - time y = x - y
  time_bne : ∀ x y, (time x != time y) = (x != y)
  time_lt : ∀ x y, time x < time y ↔ x < y
  time_later : ∀ x y, Quantity.later (time x) (time y) = time (Quantity.later x y)
  /-- A time of zero counts as none, but it may be moved to another one. -/
  time_fork : ∀ {x y}, ahead 0 x → ahead x y →
    (if time y != 0 then time y else time x) = time (if y != 0 then y else x)
  ahead_refl : ∀ x, ahead x x
  ahead_trans : ∀ {x y z}, ahead x y → ahead y z → ahead x z
  ahead_later : ∀ x y, ahead x (Quantity.later x y)
  ahead_add : ∀ x {y}, forth y → ahead x (x + y)
  ahead_add_add : ∀ x y {z}, forth z → ahead (x + y) (x + (y + z))
  ahead_add_right : ∀ x y {z}, forth z → ahead (x + y) (x + z + y)
  forth_zero : forth 0
  forth_frame : forth oneFrame
  forth_of_pos : ∀ {x}, 0 < x → forth x
  /-- Durations that are read do not turn back a clock, or it is reported. -/
  forth_read : ∀ text, still ∨ (Timings.read (τ := τ) text false).2 = [] →
    forth (Timings.read (τ := τ) text false).1.duration

variable {τ : Type} [Quantity τ]

/-- All times stay where they are. -/
def Translation.none : Translation τ where
  time x := x
  still := True
  ahead _ _ := True
  forth _ := True
  time_of_still _ _ := rfl
  time_add _ _ := rfl
  add_time _ _ := rfl
  time_sub _ _ := rfl
  time_bne _ _ := rfl
  time_lt _ _ := Iff.rfl
  time_later _ _ := rfl
  time_fork _ _ := rfl
  ahead_refl _ := trivial
  ahead_trans _ _ := trivial
  ahead_later _ _ := trivial
  ahead_add _ _ _ := trivial
  ahead_add_add _ _ _ _ := trivial
  ahead_add_right _ _ _ _ := trivial
  forth_zero := trivial
  forth_frame := trivial
  forth_of_pos _ := trivial
  forth_read _ _ := trivial

/-- A timeline with its absolute times moved. -/
def Timeline.moved (f : τ → τ) (t : Timeline τ) : Timeline τ :=
  { t with
    start := f t.start
    summary := t.summary.mapEntries fun _ write => { write with time := f write.time } }

/-- A placement with its absolute times moved. -/
def Placement.moved (f : τ → τ) (p : Placement τ) : Placement τ := { p with delay := f p.delay }

/-- An instruction with its absolute times moved. -/
def Instruction.moved (f : τ → τ) (i : Instruction τ) : Instruction τ :=
  { i with delay := f i.delay }

namespace Timeline

omit [Quantity τ] in
/-- If no time is moved, timelines stay as they are. -/
theorem moved_eq_self {f : τ → τ} (hf : ∀ x, f x = x) (t : Timeline τ) : t.moved f = t := by
  -- each entry of the summary is rebuilt with the time that it had
  have hwrite : ∀ (p : String) (write : StyleAtTime τ),
      { write with time := f write.time } = write := fun _ write => by rw [hf]
  rw [moved, hf, OrderedMap.mapEntries_eq_self hwrite]

/-- A new keyframe stands at a time of the timeline itself, which is not moved. -/
theorem moved_loadKeyframe (f : τ → τ) (t : Timeline τ) :
    (t.moved f).loadKeyframe = t.loadKeyframe.moved f := by
  simp only [loadKeyframe, moved]
  split <;> rfl

omit [Quantity τ] in
theorem moved_easePrevious (f : τ → τ) (easing : Option String) (t : Timeline τ) :
    (t.moved f).easePrevious easing = (t.easePrevious easing).moved f := by
  have hprevious : (t.moved f).previous = t.previous := rfl
  unfold easePrevious
  rw [hprevious]
  cases easing <;> cases t.previous <;> rfl

/-- The current time is moved with the start. -/
theorem currentTime_moved (T : Translation τ) (t : Timeline τ) :
    (t.moved T.time).currentTime = T.time t.currentTime :=
  (T.time_add t.start t.duration).symm

end Timeline

/-! ### What two runs have in common -/

/-- What two runs have in common of what is known of elements. -/
inductive Extent where
  /-- Everything. -/
  | all
  /-- All that is known of one element in one lineage. -/
  | cell (key : Nat × ElementId)
  /-- Some properties of one element in one lineage. -/
  | names (key : Nat × ElementId) (properties : List String)

namespace Extent

/-- Which elements are concerned. -/
def Covers : Extent → Nat × ElementId → Prop
  | all, _ => True
  | cell key, key' => key' = key
  | names key _, key' => key' = key

/-- Which properties are concerned. -/
def Names : Extent → String → Prop
  | names _ properties, p => p ∈ properties
  | _, _ => True

/-- Whether all properties are concerned. -/
def Exact : Extent → Prop
  | names .. => False
  | _ => True

/-- Whether all elements are concerned. -/
def Whole : Extent → Prop
  | all => True
  | _ => False

variable {x : Extent}

theorem names_of_exact (h : x.Exact) (p : String) : x.Names p := by
  cases x with
  | names key properties => exact h.elim
  | _ => trivial

/-- Everything is all that there is of each element. -/
theorem exact_of_whole (h : x.Whole) : x.Exact := by
  cases x with
  | all => trivial
  | _ => exact h.elim

theorem covers_of_whole (h : x.Whole) (key : Nat × ElementId) : x.Covers key := by
  cases x with
  | all => trivial
  | _ => exact h.elim

/-- Two maps of styles agree on what is concerned. -/
structure Agree (x : Extent) (m m' : StyleMap τ) : Prop where
  exact : x.Exact → m' = m
  names : ∀ p, x.Names p → m'.get? p = m.get? p

omit [Quantity τ] in
theorem Agree.refl (x : Extent) (m : StyleMap τ) : x.Agree m m := ⟨fun _ => rfl, fun _ _ => rfl⟩

omit [Quantity τ] in
/-- The same write on both sides. -/
theorem Agree.insert {m m' : StyleMap τ} (h : x.Agree m m') (p : String) (value : StyleValue τ) :
    x.Agree (m.insert p value) (m'.insert p value) where
  exact hx := by rw [h.exact hx]
  names q hq := by rw [OrderedMap.get?_insert, OrderedMap.get?_insert, h.names q hq]

/-- Styles that write, and read, no more than what is concerned. -/
def Writes (x : Extent) (entries : List (StyleEntry τ)) : Prop :=
  x.Exact ∨ ∀ entry ∈ entries, ∃ values, entry = .values values ∧ ∀ p ∈ values.keys, x.Names p

omit [Quantity τ] in
/-- Styles resolve to the same entries in both runs. -/
theorem Writes.flatten_eq {entries : List (StyleEntry τ)} (h : x.Writes entries)
    {m m' : StyleMap τ} (hm : x.Agree m m') :
    Scene.flatten m' entries = Scene.flatten m entries := by
  rcases h with hx | hvalues
  · rw [hm.exact hx]
  · unfold Scene.flatten
    congr 1
    apply List.flatMap_congr
    intro entry hentry
    -- plain values do not read what is known
    obtain ⟨values, rfl, -⟩ := hvalues entry hentry
    rfl

omit [Quantity τ] in
theorem Writes.names_of_mem {entries : List (StyleEntry τ)} (h : x.Writes entries)
    {m : StyleMap τ} {p : String} (hp : p ∈ (Scene.flatten m entries).keys) : x.Names p := by
  rcases h with hx | hvalues
  · exact names_of_exact hx p
  · rw [Scene.flatten, OrderedMap.mem_keys_ofList, List.mem_map] at hp
    obtain ⟨write, hwrite, rfl⟩ := hp
    obtain ⟨entry, hentry, hmem⟩ := List.mem_flatMap.1 hwrite
    obtain ⟨values, rfl, hnames⟩ := hvalues entry hentry
    exact hnames _ (List.mem_map_of_mem hmem)

end Extent

/-- A timeline that is concerned with no more than an extent. -/
structure Timeline.Within (x : Extent) (t : Timeline τ) : Prop where
  covered : x.Covers (t.lineage, t.element)
  /-- If it has no memory of its own, all that is known has to agree. -/
  remembers : x.Exact ∨ t.own.isSome
  own : ∀ m, t.own = some m → ∀ p ∈ m.keys, x.Names p
  summary : ∀ p ∈ t.summary.keys, x.Names p

namespace Scene

/-! ### Scenes side by side -/

/-- The same timeline but for its times, among shared styles that agree. -/
structure Corresponds (T : Translation τ) (x : Extent) (s s' : Scene τ) : Prop where
  timeline : s'.timeline = s.timeline.moved T.time
  shared : x.Agree s.shared s'.shared
  within : s.timeline.Within x

/-- Scenes that correspond, the first of which came from another one without touching what is
not concerned. -/
structure Keeps (T : Translation τ) (x : Extent) (s s₁ s₁' : Scene τ) : Prop where
  corresponds : s₁.Corresponds T x s₁'
  owner : s₁.timeline.owner = s.timeline.owner
  spared : ∀ p, ¬x.Names p → s₁.shared.get? p = s.shared.get? p

/-- A change that keeps scenes corresponding. -/
def Carried (T : Translation τ) (x : Extent) (f : Scene τ → Scene τ) : Prop :=
  ∀ ⦃s s'⦄, s.Corresponds T x s' → Keeps T x s (f s) (f s')

section Carried

variable {T : Translation τ} {x : Extent} {s s' s₁ s₁' s₂ s₂' : Scene τ}

theorem Corresponds.keeps (h : s.Corresponds T x s') : Keeps T x s s s' := ⟨h, rfl, fun _ _ => rfl⟩

theorem Keeps.trans (h : Keeps T x s s₁ s₁') (h' : Keeps T x s₁ s₂ s₂') : Keeps T x s s₂ s₂' where
  corresponds := h'.corresponds
  owner := h'.owner.trans h.owner
  spared p hp := (h'.spared p hp).trans (h.spared p hp)

theorem Carried.comp {f g : Scene τ → Scene τ} (hg : Carried T x g) (hf : Carried T x f) :
    Carried T x fun s => g (f s) :=
  fun _ _ h => (hf h).trans (hg (hf h).corresponds)

/-- What the branch knows is the same in both scenes. -/
theorem Corresponds.known_eq (h : s.Corresponds T x s') : s'.known = s.known := by
  unfold known
  rw [h.timeline]
  show s.timeline.own.getD s'.shared = s.timeline.own.getD s.shared
  -- known is the memory of the timeline, which is the same, or what is shared
  rcases h.within.remembers with hx | hown
  · rw [h.shared.exact hx]
  · obtain ⟨m, hm⟩ := Option.isSome_iff_exists.1 hown
    rw [hm]
    rfl

/-- And it is concerned. -/
theorem Corresponds.names_of_mem_known (h : s.Corresponds T x s') {p : String}
    (hp : p ∈ s.known.keys) : x.Names p := by
  rcases h.within.remembers with hx | hown
  · exact Extent.names_of_exact hx p
  · obtain ⟨m, hm⟩ := Option.isSome_iff_exists.1 hown
    rw [known, hm] at hp
    exact h.within.own m hm p hp

/-- The clocks differ by the translation. -/
theorem Corresponds.currentTime_eq (h : s.Corresponds T x s') :
    s'.timeline.currentTime = T.time s.timeline.currentTime := by
  rw [h.timeline, Timeline.currentTime_moved]

/-! ### Changes of the timeline alone -/

/-- A change of the timeline that has no regard for the absolute time and leaves alone what
the branch knows. -/
theorem Corresponds.onTimeline (h : s.Corresponds T x s') {f : Timeline τ → Timeline τ}
    (hmoved : f (s.timeline.moved T.time) = (f s.timeline).moved T.time)
    (howner : (f s.timeline).owner = s.timeline.owner)
    (hown : (f s.timeline).own = s.timeline.own)
    (hsummary : (f s.timeline).summary = s.timeline.summary) :
    Keeps T x s (s.onTimeline f) (s'.onTimeline f) := by
  have hlineage : (f s.timeline).lineage = s.timeline.lineage := congrArg (fun o => o.1) howner
  have helement : (f s.timeline).element = s.timeline.element := congrArg (fun o => o.2.1) howner
  refine ⟨⟨?_, h.shared, ?_, ?_, ?_, ?_⟩, howner, fun _ _ => rfl⟩
  · show f s'.timeline = _
    rw [h.timeline, hmoved]
    rfl
  · show x.Covers ((f s.timeline).lineage, (f s.timeline).element)
    rw [hlineage, helement]
    exact h.within.covered
  · show x.Exact ∨ (f s.timeline).own.isSome
    rw [hown]
    exact h.within.remembers
  · show ∀ m, (f s.timeline).own = some m → _
    rw [hown]
    exact h.within.own
  · show ∀ p ∈ (f s.timeline).summary.keys, _
    rw [hsummary]
    exact h.within.summary

theorem carried_easePrevious (easing : Option String) :
    Carried T x fun s => s.onTimeline (Timeline.easePrevious easing) := by
  intro s s' h
  refine h.onTimeline (Timeline.moved_easePrevious _ easing _)
    (Timeline.owner_eq_of_skeleton_eq (Timeline.skeleton_easePrevious easing _)) ?_ ?_
  · unfold Timeline.easePrevious
    split <;> rfl
  · unfold Timeline.easePrevious
    split <;> rfl

/-- New keyframes stand at times that are counted from the start. -/
theorem carried_loadKeyframe (time : Timeline τ → τ)
    (htime : ∀ t : Timeline τ, time (t.moved T.time) = time t) :
    Carried T x fun s => s.onTimeline fun t => { t with duration := time t }.loadKeyframe := by
  intro s s' h
  -- the time is read off each timeline, and is the same for both
  refine h.onTimeline ?_ (Timeline.owner_loadKeyframe _) ?_ ?_
  · rw [htime]
    exact Timeline.moved_loadKeyframe _ { s.timeline with duration := time s.timeline }
  · simp only [Timeline.loadKeyframe]
    split <;> rfl
  · simp only [Timeline.loadKeyframe]
    split <;> rfl

theorem carried_nextFrame : Carried T x fun s => s.onTimeline Timeline.forwardFrame :=
  carried_loadKeyframe (fun t => t.duration + oneFrame) fun _ => rfl

theorem carried_ease (easing : Option String) :
    Carried T x fun s => s.onTimeline ({ · with easing := easing }) :=
  fun _ _ h => h.onTimeline rfl rfl rfl rfl

theorem carried_queue (property : String) (value : StyleValue τ) :
    Carried T x (queue property value) :=
  fun _ _ h => h.onTimeline rfl rfl rfl rfl

/-- Both flush, or neither has anything to flush. -/
theorem carried_flush : Carried T x flush := by
  intro s s' h
  have hpending : s'.timeline.pending = s.timeline.pending := by
    rw [h.timeline]
    rfl
  unfold flush
  rw [hpending, h.known_eq]
  split
  · exact h.keeps
  · exact h.onTimeline rfl rfl rfl rfl

/-- Both move to the same place, counted from their starts. -/
theorem carried_forwardTo (time : Timeline τ → τ)
    (htime : ∀ t : Timeline τ, time (t.moved T.time) = time t) :
    Carried T x fun s => s.forwardTo (time s.timeline) := by
  intro s s' h
  have hload := carried_loadKeyframe (T := T) (x := x) (fun _ => time s.timeline) (fun _ => rfl)
    (carried_flush h).corresponds
  have heq : time s'.timeline = time s.timeline := by
    rw [h.timeline, htime]
  show Keeps T x s (s.forwardTo (time s.timeline)) (s'.forwardTo (time s'.timeline))
  rw [heq]
  exact (carried_flush h).trans hload

/-! ### Changes of what is known -/

/-- A write of a concerned property is noted in both. -/
theorem carried_note {property : String} (hp : x.Names property) (value : StyleValue τ) :
    Carried T x (note property value) := by
  intro s s' h
  refine ⟨⟨?_, h.shared.insert property value, h.within.covered, ?_, ?_, ?_⟩, ?_, ?_⟩
  · -- the time of the write is moved with all others
    simp only [note, h.timeline, Timeline.currentTime_moved]
    simp only [Timeline.moved, OrderedMap.mapEntries_insert]
  · rw [note, Option.isSome_map]
    exact h.within.remembers
  · intro m hm p hmem
    obtain ⟨m', hm', rfl⟩ := Option.map_eq_some_iff.1 hm
    rcases OrderedMap.mem_keys_insert.1 hmem with rfl | hmem
    · exact hp
    · exact h.within.own m' hm' p hmem
  · intro p hmem
    rcases OrderedMap.mem_keys_insert.1 hmem with rfl | hmem
    · exact hp
    · exact h.within.summary p hmem
  · exact Timeline.owner_eq_of_skeleton_eq (s.skeleton_note property value)
  · intro p hnot
    have hne : p ≠ property := fun he => hnot (he ▸ hp)
    show (s.shared.insert property value).get? p = _
    rw [OrderedMap.get?_insert, if_neg hne]

/-- A concerned property is new to both scenes or to neither. -/
theorem carried_backfill {property : String} (hp : x.Names property) :
    Carried T x (backfill property) := by
  intro s s' h
  unfold backfill
  rw [h.known_eq, h.shared.names property hp]
  split
  · exact h.keeps
  · exact h.onTimeline rfl rfl rfl rfl

/-- A write of a concerned property keeps scenes corresponding. -/
theorem carried_write {property : String} (hp : x.Names property) (value : StyleValue τ) :
    Carried T x (write property value) :=
  (carried_note hp value).comp ((carried_backfill hp).comp (carried_queue property value))

theorem carried_writeAll (params : Params τ) {styles : List (String × StyleValue τ)}
    (hp : ∀ p ∈ styles.map Prod.fst, x.Names p) :
    Carried T x fun s => (s.writeAll params styles).1 := by
  induction styles with
  | nil => exact fun _ _ h => h.keeps
  | cons entry rest ih =>
    rw [List.map_cons, List.forall_mem_cons] at hp
    exact (ih hp.2).comp (carried_write hp.1 _)

/-- What is to be reported of styles does not depend on the scene. -/
theorem writeAll_snd (params : Params τ) (styles : List (String × StyleValue τ)) (s s' : Scene τ) :
    (s'.writeAll params styles).2 = (s.writeAll params styles).2 := by
  induction styles generalizing s s' with
  | nil => rfl
  | cons entry rest ih =>
    simp only [writeAll]
    rw [ih]

/-- Styles are written to both scenes with the same reports. -/
theorem Corresponds.setStyles (h : s.Corresponds T x s') {entries : List (StyleEntry τ)}
    (hw : x.Writes entries) (easing : Option String) (params : Params τ) :
    Keeps T x s (s.setStyles entries easing params).1 (s'.setStyles entries easing params).1 ∧
      (s'.setStyles entries easing params).2 = (s.setStyles entries easing params).2 := by
  have hease := carried_easePrevious easing h
  -- the entries are resolved by what is shared, before any of them is written
  have hflatten := hw.flatten_eq h.shared
  unfold Scene.setStyles
  constructor
  · refine hease.trans ?_
    show Keeps T x _ _ (Scene.writeAll params (flatten s'.shared entries).entries _).1
    rw [hflatten]
    exact carried_writeAll params (fun p hp => hw.names_of_mem hp) hease.corresponds
  · show (Scene.writeAll params (flatten s'.shared entries).entries _).2 = _
    rw [hflatten]
    exact writeAll_snd params _ _ _

/-- An empty step writes all that is shared, so all of it has to agree. -/
theorem carried_setEmptyStep (hx : x.Exact) (easing : Option String) :
    Carried T x (setEmptyStep easing) := by
  intro s s' h
  have hease := carried_easePrevious easing h
  unfold setEmptyStep
  rw [h.shared.exact hx]
  exact hease.trans (hease.corresponds.onTimeline rfl rfl rfl rfl)

/-- A snapshot writes what is known, which is the same for both. -/
theorem carried_snapshot : Carried T x snapshot := by
  intro s s' h
  have hnames : ∀ entry ∈ s.known.entries, x.Names entry.1 :=
    fun entry hentry => h.names_of_mem_known (List.mem_map_of_mem hentry)
  unfold snapshot
  rw [h.known_eq]
  -- the entries are fixed before the first write, so the induction is on them alone
  generalize s.known.entries = entries at hnames
  induction entries generalizing s s' with
  | nil => exact h.keeps
  | cons entry rest ih =>
    rw [List.forall_mem_cons] at hnames
    have hstep := (carried_note hnames.1 entry.2).comp (carried_queue entry.1 entry.2) h
    exact hstep.trans (ih hstep.corresponds hnames.2)

/-- A delay asks for what waits and how far the clock is, which is the same for both. -/
theorem carried_delayNextStep (delay : τ) : Carried T x (delayNextStep delay) := by
  intro s s' h
  have hforward := carried_forwardTo (T := T) (x := x) (fun t => t.duration + delay)
    (fun _ => rfl) h
  have hduration : s'.timeline.duration = s.timeline.duration := by
    rw [h.timeline]
    rfl
  have hkeyframes : s'.timeline.keyframes = s.timeline.keyframes := by
    rw [h.timeline]
    rfl
  have hpending : s'.timeline.pending = s.timeline.pending := by
    rw [h.timeline]
    rfl
  simp only [delayNextStep, hduration, hkeyframes, hpending] at hforward ⊢
  split
  · -- the first branch moves the clock, the second one the start
    split
    · exact hforward.trans (carried_snapshot hforward.corresponds)
    · exact hforward
  · refine h.onTimeline ?_ rfl rfl rfl
    show _ = { s.timeline.moved T.time with start := T.time (s.timeline.start + delay) }
    rw [T.time_add]
    rfl

/-! ### Merging -/

/-- Which of two writes is newer does not depend on the translation. -/
theorem Corresponds.noteIfNewer (h : s.Corresponds T x s') {property : String}
    (hp : x.Names property) (theirs : StyleAtTime τ) :
    Keeps T x s (s.noteIfNewer property theirs)
      (s'.noteIfNewer property { theirs with time := T.time theirs.time }) := by
  have hours : s'.timeline.summary.get? property =
      (s.timeline.summary.get? property).map fun write =>
        { write with time := T.time write.time } := by
    rw [h.timeline]
    exact OrderedMap.get?_mapEntries _ _ _
  have hnote := carried_note hp theirs.value h
  unfold Scene.noteIfNewer
  rw [hours]
  cases s.timeline.summary.get? property with
  | none => exact hnote
  | some ours =>
    simp only [Option.map_some, T.time_lt]
    split
    · exact hnote
    · exact h.keeps

/-- Timelines that differ by the translation are merged alike. -/
theorem Corresponds.merge (h : s.Corresponds T x s') {other : Timeline τ}
    (hother : ∀ p ∈ other.summary.keys, x.Names p) :
    Keeps T x s (s.merge other) (s'.merge (other.moved T.time)) := by
  unfold Scene.merge
  show Keeps T x s _ ((other.summary.entries.map _).foldl _ s')
  -- the second run merges the same entries, at times that are moved
  rw [List.foldl_map]
  have hnames : ∀ entry ∈ other.summary.entries, x.Names entry.1 :=
    fun entry hentry => hother _ (List.mem_map_of_mem hentry)
  generalize other.summary.entries = entries at hnames
  induction entries generalizing s s' with
  | nil => exact h.keeps
  | cons entry rest ih =>
    rw [List.forall_mem_cons] at hnames
    have hstep := h.noteIfNewer hnames.1 entry.2
    exact hstep.trans (ih hstep.corresponds hnames.2)

/-! ### Finishing -/

/-- The instruction is the same but for its delay. -/
theorem Corresponds.toInstruction_eq (h : s.Corresponds T x s') :
    s'.toInstruction = s.toInstruction.moved T.time := by
  have hflush := (carried_flush h).corresponds.timeline
  unfold toInstruction
  rw [hflush]
  rfl

end Carried

end Scene

end Choreography
