/-
Choreography/Proofs/Registry.lean

A score as a registry of timelines.

Handles are given out one after another, and a handle always stands for the timeline for which
it was given out: for what the requests that are aimed at that timeline have made of it since
(`timeline_serve`).  What is listed is what was registered, in order (`order_serve`).

In the end the timelines are taken out of their places, each for the entry that lists it.  An
entry whose timeline is gone would be dropped without a word (`takeOut`), but every timeline is
listed just once (`Score.Filed`), so none is (`release_eq`).

Main result: `registry_keeps`.
-/
import Choreography.Proofs.Operation

namespace Choreography

variable {τ : Type}

/-- The timeline of an entry, if it is one. -/
def Entry.handle? : Entry τ → Option TimelineId
  | .timeline id => some id
  | .placed _ => none

/-- What can be asked of a score: to register a timeline that was made elsewhere, or an
operation. -/
inductive Request (τ : Type) where
  | register (scene : Scene τ)
  | operate (op : Operation τ)

variable [Quantity τ]

namespace Score

/-! ### Registering -/

/-- Registers a timeline, with what is known of its element. -/
def register (s : Score τ) (scene : Scene τ) : TimelineId × Score τ :=
  (s.timelines.length,
    { s with
      timelines := s.timelines ++ [scene.timeline]
      order := s.order ++ [.timeline s.timelines.length]
      shared := s.shared.insert (scene.timeline.lineage, scene.timeline.element) scene.shared })

/-- A timeline of a lineage as it is entered. -/
def opening (s : Score τ) (lineage : Nat) (element : ElementId) (start : τ) : Scene τ where
  timeline := .begin lineage element start
    (if s.shared.contains (lineage, element) then some ∅ else none)
  shared := s.known lineage element

/-- To enter a timeline is to register it. -/
theorem enter_eq (s : Score τ) (lineage : Nat) (element : ElementId) (start : τ) :
    s.enter lineage element start = s.register (s.opening lineage element start) := by
  have hshared : (if !s.shared.contains (lineage, element) then s.shared.insert (lineage, element) ∅
      else s.shared) = s.shared.insert (lineage, element) (s.known lineage element) := by
    rw [known]
    -- room is made for the element, or what is known of it is put back
    cases hget : s.shared.get? (lineage, element) with
    | none =>
      have hnew : s.shared.contains (lineage, element) = false := by
        rw [← OrderedMap.get?_isSome, hget]
        rfl
      rw [hnew]
      rfl
    | some styles =>
      have hknown : s.shared.contains (lineage, element) = true := by
        rw [← OrderedMap.get?_isSome, hget]
        rfl
      rw [hknown]
      exact (OrderedMap.insert_of_get? hget).symm
  have hown : (if !s.shared.contains (lineage, element) then none else some ∅ :
      Option (StyleMap τ)) = if s.shared.contains (lineage, element) then some ∅ else none := by
    cases s.shared.contains (lineage, element) <;> rfl
  simp only [enter, register, opening, hshared, hown]
  rfl

/-! ### Handles are listed once -/

/-- The listed timelines are all that there are, in the order in which they were entered. -/
def Filed (s : Score τ) : Prop := s.order.filterMap Entry.handle? = List.range s.timelines.length

variable {s : Score τ}

omit [Quantity τ] in
/-- A timeline that is registered is listed last, with the last handle. -/
theorem Filed.register (h : s.Filed) (scene : Scene τ) : (s.register scene).2.Filed := by
  show (s.order ++ [Entry.timeline s.timelines.length]).filterMap Entry.handle? =
    List.range (s.timelines ++ [scene.timeline]).length
  rw [List.filterMap_append, h, List.length_append, List.length_singleton, List.range_succ]
  rfl

theorem Filed.enter (h : s.Filed) (lineage : Nat) (element : ElementId) (start : τ) :
    (s.enter lineage element start).2.Filed := by
  rw [enter_eq]
  exact h.register _

theorem Filed.edit (h : s.Filed) (id : TimelineId) (f : Scene τ → Scene τ) :
    (s.edit id f).Filed := by
  unfold Filed at h ⊢
  rw [order_edit, length_timelines_edit, h]

/-- No operation lists a timeline twice, or leaves one out. -/
theorem Filed.perform (h : s.Filed) (op : Operation τ) : (s.perform op).Filed := by
  cases op with
  | begin element start =>
    exact Filed.enter (s := { s with lineages := s.lineages + 1 }) h _ _ _
  | fork id element at? =>
    show (s.fork id element at?).2.Filed
    rw [fork_eq]
    exact (h.edit id _).enter _ _ _
  | change id c => exact h.edit id _
  | merge into source =>
    show (s.merge into source).Filed
    unfold merge
    split
    · exact h
    · exact h.edit into _
  | place p =>
    -- a placement is listed, but it is no timeline
    show (s.order ++ [Entry.placed p]).filterMap Entry.handle? = _
    rw [List.filterMap_append, h]
    exact List.append_nil _

theorem Filed.performAll (h : s.Filed) (ops : List (Operation τ)) : (s.performAll ops).Filed := by
  induction ops generalizing s with
  | nil => exact h
  | cons op ops ih => exact ih (h.perform op)

omit [Quantity τ] in
theorem filed_empty : (empty : Score τ).Filed := rfl

/-- A timeline is shown once. -/
theorem Filed.not_mem_of_animated_eq (h : s.Filed) {id : TimelineId} {pre post : List (Entry τ)}
    (hs : s.animated = pre ++ .timeline id :: post) :
    Entry.timeline id ∉ pre ∧ Entry.timeline id ∉ post := by
  -- what is shown is listed, and nothing is listed twice
  have hnodup : (s.animated.filterMap Entry.handle?).Nodup := by
    refine List.Nodup.sublist (List.filter_sublist.filterMap _) ?_
    rw [h]
    exact List.nodup_range
  rw [hs, List.filterMap_append, List.filterMap_cons, List.nodup_append] at hnodup
  obtain ⟨-, hpost, hpre⟩ := hnodup
  have hhandle : ∀ {entries : List (Entry τ)}, Entry.timeline id ∈ entries →
      id ∈ entries.filterMap Entry.handle? :=
    fun hmem => List.mem_filterMap.2 ⟨_, hmem, rfl⟩
  constructor
  · intro hmem
    exact hpre id (hhandle hmem) id List.mem_cons_self rfl
  · intro hmem
    exact (List.nodup_cons.1 hpost).1 (hhandle hmem)

/-! ### Requests -/

/-- Grants a request; also tells the handle that is given out, if there is one. -/
def grant (s : Score τ) : Request τ → Option TimelineId × Score τ
  | .register scene =>
    let (id, s) := s.register scene
    (some id, s)
  | .operate (.begin element start) =>
    let (id, s) := s.begin element start
    (some id, s)
  | .operate (.fork id element at?) =>
    let (id, s) := s.fork id element at?
    (some id, s)
  | .operate op => (none, s.perform op)

/-- A timeline with what is known of its element. -/
def beside (s : Score τ) (t : Timeline τ) : Scene τ := ⟨t, s.known t.lineage t.element⟩

/-- Grants requests one after another. -/
def serve (s : Score τ) (requests : List (Request τ)) : Score τ :=
  requests.foldl (fun s r => (s.grant r).2) s

/-- The handles that are given out for requests. -/
def handed : Score τ → List (Request τ) → List TimelineId
  | _, [] => []
  | s, r :: rest => (s.grant r).1.toList ++ (s.grant r).2.handed rest

theorem grant_operate (s : Score τ) (op : Operation τ) :
    (s.grant (.operate op)).2 = s.perform op := by
  cases op <;> rfl

end Score

namespace Request

omit [Quantity τ] in
/-- What a request has listed if the next handle is `next`. -/
def entries (next : TimelineId) : Request τ → List (Entry τ)
  | register _ | operate (.begin ..) | operate (.fork ..) => [.timeline next]
  | operate (.place p) => [.placed p]
  | operate (.change ..) | operate (.merge ..) => []

omit [Quantity τ] in
/-- What requests have listed, in order, if the next handle is `next`. -/
def booked (next : TimelineId) : List (Request τ) → List (Entry τ)
  | [] => []
  | r :: rest =>
    r.entries next ++ booked (next + ((r.entries next).filterMap Entry.handle?).length) rest

/-- The timeline that a request registers, with what is known of its element. -/
def newcomer? (s : Score τ) : Request τ → Option (Scene τ)
  | register scene => some scene
  | operate (.begin element start) => some (s.opening s.lineages element start)
  | operate (.fork id element at?) =>
    let s' := s.edit id Scene.flush
    some (s'.opening (s'.timeline id).lineage element (s.forkTime id at?))
  | operate (.change ..) | operate (.merge ..) | operate (.place _) => none

/-- What a request makes of the timeline with a handle. -/
def effect (s : Score τ) (id : TimelineId) (t : Timeline τ) : Request τ → Timeline τ
  | operate (.fork source _ _) => if source = id then (s.beside t).flush.timeline else t
  | operate (.change target c) => if target = id then ((s.beside t).change c).timeline else t
  | operate (.merge into source) =>
    if into = id ∧ into ≠ source then ((s.beside t).merge (s.timeline source)).timeline else t
  | register _ | operate (.begin ..) | operate (.place _) => t

end Request

namespace Score

/-! ### Handles and entries -/

/-- What a request does: it gives out the next handle for a timeline that it registers, or it
leaves the timelines where they are and at most has a placement listed. -/
theorem grant_cases (s : Score τ) (r : Request τ) :
    (∃ (s' : Score τ) (scene : Scene τ),
      s'.timelines.length = s.timelines.length ∧ s'.order = s.order ∧
        r.newcomer? s = some scene ∧
        r.entries s.timelines.length = [.timeline s.timelines.length] ∧
        s.grant r = (some (s'.register scene).1, (s'.register scene).2)) ∨
    ∃ s' : Score τ,
      s'.timelines.length = s.timelines.length ∧
        s'.order = s.order ++ r.entries s.timelines.length ∧
        (r.entries s.timelines.length).filterMap Entry.handle? = [] ∧ s.grant r = (none, s') := by
  -- a request registers a timeline, be it a given one, a new one or a fork, or it does not
  cases r with
  | register scene => exact .inl ⟨s, scene, rfl, rfl, rfl, rfl, rfl⟩
  | operate op =>
    cases op with
    | begin element start =>
      have hbegin : s.begin element start = register { s with lineages := s.lineages + 1 }
          (s.opening s.lineages element start) := enter_eq _ _ _ _
      refine .inl ⟨{ s with lineages := s.lineages + 1 }, _, rfl, rfl, rfl, rfl, ?_⟩
      rw [← hbegin]
      rfl
    | fork source element at? =>
      refine .inl ⟨s.edit source Scene.flush, _, length_timelines_edit s source _, rfl, rfl, rfl, ?_⟩
      rw [← enter_eq, ← fork_eq]
      rfl
    | change id c =>
      exact .inr ⟨s.edit id (·.change c), length_timelines_edit s id _, (List.append_nil _).symm,
        rfl, rfl⟩
    | merge into source =>
      refine .inr ⟨s.merge into source, ?_, ?_, rfl, rfl⟩
      · unfold merge
        split
        · rfl
        · exact length_timelines_edit s into _
      · rw [Request.entries, List.append_nil, merge]
        split <;> rfl
    | place p => exact .inr ⟨s.place p, rfl, rfl, rfl, rfl⟩

theorem order_grant (s : Score τ) (r : Request τ) :
    (s.grant r).2.order = s.order ++ r.entries s.timelines.length := by
  obtain ⟨s', scene, hlength, horder, -, hentries, hgrant⟩ | ⟨s', -, horder, -, hgrant⟩ :=
    s.grant_cases r
  · rw [hgrant, hentries, ← horder, ← hlength]
    rfl
  · rw [hgrant, horder]

theorem length_grant (s : Score τ) (r : Request τ) :
    (s.grant r).2.timelines.length =
      s.timelines.length + ((r.entries s.timelines.length).filterMap Entry.handle?).length := by
  obtain ⟨s', scene, hlength, -, -, hentries, hgrant⟩ | ⟨s', hlength, -, hnone, hgrant⟩ :=
    s.grant_cases r
  · rw [hgrant, hentries, ← hlength]
    exact List.length_append
  · rw [hgrant, hnone, hlength]
    rfl

/-- A handle is given out just if a timeline is listed, and it is the next one. -/
theorem grant_fst (s : Score τ) (r : Request τ) :
    (s.grant r).1.toList = (r.entries s.timelines.length).filterMap Entry.handle? := by
  obtain ⟨s', scene, hlength, -, -, hentries, hgrant⟩ | ⟨s', -, -, hnone, hgrant⟩ :=
    s.grant_cases r
  · rw [hgrant, hentries, ← hlength]
    rfl
  · rw [hgrant, hnone]
    rfl

/-- No request lists a timeline twice, or leaves one out. -/
theorem Filed.grant {s : Score τ} (h : s.Filed) (r : Request τ) : (s.grant r).2.Filed := by
  cases r with
  | register scene => exact h.register scene
  | operate op =>
    rw [grant_operate]
    exact h.perform op

theorem serve_append (s : Score τ) (requests more : List (Request τ)) :
    s.serve (requests ++ more) = (s.serve requests).serve more :=
  List.foldl_append

/-- What is listed is what was registered, in order. -/
theorem order_serve (s : Score τ) (requests : List (Request τ)) :
    (s.serve requests).order = s.order ++ Request.booked s.timelines.length requests := by
  induction requests generalizing s with
  | nil => exact (List.append_nil _).symm
  | cons r rest ih =>
    show ((s.grant r).2.serve rest).order = _
    -- the rest begins with the next handle
    rw [ih, order_grant, length_grant, Request.booked, List.append_assoc]

theorem Filed.serve {s : Score τ} (h : s.Filed) (requests : List (Request τ)) :
    (s.serve requests).Filed := by
  induction requests generalizing s with
  | nil => exact h
  | cons r rest ih => exact ih (h.grant r)

/-- The handles that are given out count on from those that have been. -/
theorem handed_eq {s : Score τ} (h : s.Filed) (requests : List (Request τ)) :
    List.range s.timelines.length ++ s.handed requests =
      List.range (s.serve requests).timelines.length := by
  induction requests generalizing s with
  | nil => exact List.append_nil _
  | cons r rest ih =>
    -- the handles so far are those that are listed
    have hnext : List.range s.timelines.length ++ (s.grant r).1.toList =
        List.range (s.grant r).2.timelines.length := by
      rw [← h, grant_fst, ← List.filterMap_append, ← order_grant]
      exact h.grant r
    rw [handed, ← List.append_assoc, hnext]
    exact ih (h.grant r)

/-- A handle has been given out if it is one of a timeline that is there. -/
theorem mem_handed_iff {requests : List (Request τ)} {id : TimelineId} :
    id ∈ empty.handed requests ↔ id < (empty.serve requests).timelines.length := by
  have hhanded : empty.handed requests = List.range (empty.serve requests).timelines.length :=
    handed_eq filed_empty requests
  rw [hhanded, List.mem_range]

theorem handed_append (s : Score τ) (requests more : List (Request τ)) :
    s.handed (requests ++ more) = s.handed requests ++ (s.serve requests).handed more := by
  induction requests generalizing s with
  | nil => rfl
  | cons r rest ih =>
    rw [List.cons_append, handed, handed, ih, List.append_assoc]
    rfl

/-! ### What a handle stands for -/

/-- The last handle stands for the timeline that was registered. -/
theorem timeline_register_self (s : Score τ) (scene : Scene τ) :
    (s.register scene).2.timeline s.timelines.length = scene.timeline := by
  simp [timeline, register]

theorem timeline_register_of_lt {s : Score τ} {id : TimelineId} (scene : Scene τ)
    (h : id < s.timelines.length) : (s.register scene).2.timeline id = s.timeline id := by
  simp only [timeline, register, List.getD_eq_getElem?_getD, List.getElem?_append_left h]

/-- A handle is the next one, and stands for the timeline for which it is given out. -/
theorem newcomer_of_grant {s : Score τ} {r : Request τ} {id : TimelineId}
    (h : (s.grant r).1 = some id) :
    id = s.timelines.length ∧ id < (s.grant r).2.timelines.length ∧
      ∃ scene, r.newcomer? s = some scene ∧ (s.grant r).2.timeline id = scene.timeline := by
  obtain ⟨s', scene, hlength, -, hnewcomer, -, hgrant⟩ | ⟨s', -, -, -, hgrant⟩ := s.grant_cases r
  · rw [hgrant] at h ⊢
    obtain rfl := Option.some.inj h
    refine ⟨hlength, ?_, scene, hnewcomer, timeline_register_self s' scene⟩
    show s'.timelines.length < (s'.timelines ++ [scene.timeline]).length
    rw [List.length_append]
    exact Nat.lt_succ_self _
  · rw [hgrant] at h
    cases h

theorem timeline_edit {s : Score τ} {id : TimelineId} (hid : id < s.timelines.length)
    (target : TimelineId) (f : Scene τ → Scene τ) :
    (s.edit target f).timeline id =
      if target = id then (f (s.beside (s.timeline id))).timeline else s.timeline id := by
  split
  · next htarget =>
    subst htarget
    exact timeline_edit_self f hid
  · next hne => exact timeline_edit_of_ne f hne

/-- What a handle stands for is changed by a request as it says. -/
theorem timeline_grant {s : Score τ} {id : TimelineId} (hid : id < s.timelines.length)
    (r : Request τ) : (s.grant r).2.timeline id = r.effect s id (s.timeline id) := by
  cases r with
  | register scene => exact timeline_register_of_lt scene hid
  | operate op =>
    rw [grant_operate]
    cases op with
    | begin element start => exact timeline_perform hid (by simp [Operation.target?])
    | fork source element at? =>
      show (s.fork source element at?).2.timeline id = _
      rw [timeline_fork_of_lt _ _ _ hid, timeline_edit hid]
      rfl
    | change target c => exact timeline_edit hid target _
    | merge into source =>
      show (s.merge into source).timeline id = _
      unfold merge
      split
      · next hself => simp [Request.effect, hself]
      · next hne =>
        rw [timeline_edit hid]
        simp [Request.effect, hne]
    | place p => rfl

/-- What requests make of the timeline with a handle, one after another. -/
def follow (id : TimelineId) : Score τ → List (Request τ) → Timeline τ → Timeline τ
  | _, [], t => t
  | s, r :: rest, t => follow id (s.grant r).2 rest (r.effect s id t)

/-- A handle goes on to stand for its timeline. -/
theorem timeline_serve {s : Score τ} {id : TimelineId} (hid : id < s.timelines.length)
    (requests : List (Request τ)) :
    (s.serve requests).timeline id = follow id s requests (s.timeline id) := by
  induction requests generalizing s with
  | nil => rfl
  | cons r rest ih =>
    have hlater : id < (s.grant r).2.timelines.length := by
      rw [length_grant]
      exact Nat.lt_of_lt_of_le hid (Nat.le_add_right _ _)
    rw [follow, ← timeline_grant hid]
    exact ih hlater

/-! ### Two timelines at once -/

omit [Quantity τ] in
/-- Two timelines at once: the list is parted before the later of them.  There is no result if
they are the same, or if one of them is not there. -/
def pair (into source : TimelineId) (timelines : List (Timeline τ)) :
    Option (Timeline τ × Timeline τ) :=
  if into < source then
    let (front, back) := timelines.splitAt source
    (front[into]?).bind fun target => (back[0]?).map fun other => (target, other)
  else
    let (front, back) := timelines.splitAt into
    (back[0]?).bind fun target => (front[source]?).map fun other => (target, other)

/-- The timeline of a handle is in its place. -/
theorem getElem?_timelines {s : Score τ} {id : TimelineId} (h : id < s.timelines.length) :
    s.timelines[id]? = some (s.timeline id) := by
  rw [timeline, List.getD_eq_getElem _ _ h, List.getElem?_eq_getElem h]

/-- Whichever of them is the later one. -/
theorem pair_eq {s : Score τ} {into source : TimelineId} (hne : into ≠ source)
    (hinto : into < s.timelines.length) (hsource : source < s.timelines.length) :
    pair into source s.timelines = some (s.timeline into, s.timeline source) := by
  unfold pair
  rw [List.splitAt_eq, List.splitAt_eq]
  -- the later of them is at the beginning of the second part
  split
  · next hlt =>
    simp only [List.getElem?_take_of_lt hlt, List.getElem?_drop, Nat.add_zero,
      getElem?_timelines hinto, getElem?_timelines hsource]
    rfl
  · next hle =>
    have hlt : source < into := Nat.lt_of_le_of_ne (Nat.not_lt.1 hle) (Ne.symm hne)
    simp only [List.getElem?_take_of_lt hlt, List.getElem?_drop, Nat.add_zero,
      getElem?_timelines hinto, getElem?_timelines hsource]
    rfl

theorem merge_self (s : Score τ) (id : TimelineId) : s.merge id id = s := if_pos rfl

/-- A merge takes note of what stands in the other place. -/
theorem timeline_merge {s : Score τ} {into source : TimelineId} (hne : into ≠ source)
    (hinto : into < s.timelines.length) :
    (s.merge into source).timeline into =
      (Scene.merge (s.timeline source) (s.scene into)).timeline := by
  rw [merge, if_neg hne]
  exact timeline_edit_self _ hinto

/-! ### Taking everything out -/

end Score

/-- What a score has for an entry. -/
inductive Item (τ : Type) where
  | timeline (t : Timeline τ)
  | placed (p : Placement τ)

namespace Item

/-- The timeline that it is, if it is one. -/
def timeline? : Item τ → Option (Timeline τ)
  | timeline t => some t
  | placed _ => none

/-- Whether there is anything to show. -/
def containsAnimation : Item τ → Bool
  | timeline t => t.containsAnimation
  | placed p => p.containsAnimation

end Item

namespace Score

/-- What a score has for an entry. -/
def item (s : Score τ) : Entry τ → Item τ
  | .timeline id => .timeline (s.timeline id)
  | .placed p => .placed p

/-- Takes out of their places what entries list, one after another.  An entry whose timeline
has been taken out before is dropped; there is no result if an entry has a handle that was not
given out. -/
def takeOut : List (Entry τ) → List (Option (Timeline τ)) → Option (List (Item τ))
  | [], _ => some []
  | .placed p :: rest, places => (takeOut rest places).map (.placed p :: ·)
  | .timeline id :: rest, places =>
    match places[id]? with
    | none => none
    | some none => takeOut rest places
    | some (some t) => (takeOut rest (places.set id none)).map (.timeline t :: ·)

/-- Takes everything out of a score. -/
def release (s : Score τ) : Option (List (Item τ)) := takeOut s.order (s.timelines.map some)

/-- As long as every timeline is in its place, and listed once, nothing is dropped. -/
theorem takeOut_eq (s : Score τ) {entries : List (Entry τ)} {places : List (Option (Timeline τ))}
    (hnodup : (entries.filterMap Entry.handle?).Nodup)
    (hplaces : ∀ id ∈ entries.filterMap Entry.handle?, places[id]? = some (some (s.timeline id))) :
    takeOut entries places = some (entries.map s.item) := by
  induction entries generalizing places with
  | nil => rfl
  | cons e rest ih =>
    cases e with
    | placed p =>
      rw [takeOut, ih hnodup hplaces]
      rfl
    | timeline id =>
      obtain ⟨hnew, hrest⟩ := List.nodup_cons.1 hnodup
      have hthere : places[id]? = some (some (s.timeline id)) := hplaces id List.mem_cons_self
      -- one place is empty then, but no entry asks for it again
      have hothers : ∀ id' ∈ rest.filterMap Entry.handle?,
          (places.set id none)[id']? = some (some (s.timeline id')) := by
        intro id' hid'
        have hne : id ≠ id' := fun heq => hnew (heq ▸ hid')
        rw [List.getElem?_set_ne hne]
        exact hplaces id' (List.mem_cons_of_mem id hid')
      simp only [takeOut, hthere, ih hrest hothers]
      rfl

/-- Listed twice, a timeline would be taken out once. -/
example (t : Timeline τ) :
    takeOut [.timeline 0, .timeline 0] [some t] = some [.timeline t] := rfl

/-- Nothing is dropped. -/
theorem release_eq {s : Score τ} (h : s.Filed) : s.release = some (s.order.map s.item) := by
  refine takeOut_eq s ?_ ?_
  · rw [h]
    exact List.nodup_range
  · intro id hid
    rw [h, List.mem_range] at hid
    rw [List.getElem?_map, getElem?_timelines hid]
    rfl

/-- The timelines are taken out in the order of their handles. -/
theorem filterMap_timeline?_items {s : Score τ} (h : s.Filed) :
    (s.order.map s.item).filterMap Item.timeline? = s.timelines := by
  have hitem : Item.timeline? ∘ s.item = fun e => (Entry.handle? e).map s.timeline := by
    funext e
    cases e <;> rfl
  rw [List.filterMap_map, hitem, ← List.map_filterMap, h]
  -- place by place
  apply List.ext_getElem?
  intro id
  by_cases hid : id < s.timelines.length
  · rw [getElem?_timelines hid, List.getElem?_map, List.getElem?_range hid]
    rfl
  · have hge := Nat.not_lt.1 hid
    rw [List.getElem?_eq_none hge, List.getElem?_eq_none (by simpa using hge)]

/-- What is released and has anything to show is what becomes instructions. -/
theorem filter_items (s : Score τ) :
    (s.order.map s.item).filter Item.containsAnimation = s.animated.map s.item := by
  have hitem : Item.containsAnimation ∘ s.item = s.containsAnimation := by
    funext e
    cases e <;> rfl
  rw [List.filter_map, hitem, animated]

/-! ### Runs of requests -/

/-- **Nothing is lost, doubled or moved.**  Whatever is asked of an empty score, a handle that is
given out is new, and stands to the end for the timeline for which it was given out and for what
later requests have made of that timeline.  Taking note on one timeline of what another one wrote
finds both of them, whichever has the greater handle, and changes no other.  In the end everything
is taken out, in the order in which it was registered: every timeline once, and every placement;
and what has anything to show is what becomes instructions. -/
theorem registry_keeps (requests : List (Request τ)) :
    let s := empty.serve requests
    (∀ before r after, requests = before ++ r :: after →
      ∀ id, ((empty.serve before).grant r).1 = some id →
        id ∉ empty.handed before ∧ id < s.timelines.length ∧
          ∃ scene, r.newcomer? (empty.serve before) = some scene ∧
            s.timeline id = follow id ((empty.serve before).grant r).2 after scene.timeline) ∧
    (∀ into ∈ empty.handed requests, ∀ source ∈ empty.handed requests,
      s.merge into into = s ∧ (into ≠ source →
        pair into source s.timelines = some (s.timeline into, s.timeline source) ∧
          (s.merge into source).timeline into =
            (Scene.merge (s.timeline source) (s.scene into)).timeline ∧
          (s.merge into source).order = s.order ∧
          ∀ id, id ≠ into → (s.merge into source).timeline id = s.timeline id)) ∧
    ∃ items, s.release = some items ∧ items.length = s.size ∧
      items = (Request.booked 0 requests).map s.item ∧
        items.filterMap Item.timeline? = s.timelines ∧
        items.filter Item.containsAnimation = s.animated.map s.item := by
  intro s
  have hfiled : s.Filed := filed_empty.serve requests
  refine ⟨?stands, ?merges, ?released⟩
  case stands =>
    intro before r after hrequests id hid
    obtain ⟨hnext, hlt, scene, hscene, hthere⟩ := newcomer_of_grant hid
    -- the request, and what comes after it
    have hserve : s = ((empty.serve before).grant r).2.serve after := by
      show empty.serve requests = _
      rw [hrequests, serve_append]
      rfl
    have hhanded : id ∈ empty.handed requests := by
      rw [hrequests, handed_append, handed, hid]
      exact List.mem_append_right _ List.mem_cons_self
    refine ⟨fun hbefore => ?_, mem_handed_iff.1 hhanded, scene, hscene, ?_⟩
    · exact absurd hnext (Nat.ne_of_lt (mem_handed_iff.1 hbefore))
    · rw [hserve, timeline_serve hlt, hthere]
  case merges =>
    intro into hinto source hsource
    rw [mem_handed_iff] at hinto hsource
    refine ⟨merge_self s into, fun hne => ⟨pair_eq hne hinto hsource, timeline_merge hne hinto, ?_⟩⟩
    rw [merge, if_neg hne]
    exact ⟨order_edit s into _, fun id hid => timeline_edit_of_ne _ (Ne.symm hid)⟩
  case released =>
    refine ⟨s.order.map s.item, release_eq hfiled, List.length_map _, ?_,
      filterMap_timeline?_items hfiled, filter_items s⟩
    exact congrArg (List.map s.item) (order_serve empty requests)

end Score

end Choreography
