/-
Choreography/Proofs/Originals.lean

What a table remembers, and whether it is what was there in the beginning.

A player that starts remembers what its properties are at that moment, if it is the first one
to set them among the players that hold its record.  No cue changes a remembered value: it
stays until the table forgets the record (`initialValue?_cue`).  So what a table says of the
values that elements had in the beginning is right if and only if each of them is still
there when it is remembered (`originals_iff`).

That it is still there cannot be taken for granted.  End styles are set without being
remembered, so that a later player takes them for what was there before; and when a record is
forgotten, the next player remembers whatever is shown by those that still hold the old one.
-/
import Mathlib.Data.List.Induction
import Choreography.Proofs.Records
import Choreography.Proofs.Restoration

namespace Choreography

variable {τ : Type}

namespace Theatre

variable {table n : Nat} {t : Theatre τ} {p : Player τ} {e : ElementId} {property : String}

/-! ### Steps -/

theorem initialValue?_step (h : InOrder table t) (hp : t.player? n = some p) (e : ElementId)
    (property : String) :
    (t.step n p).1.initialValue? table e property
      = if p.phase = .finished ∧ e = p.element then none
        else if p.phase = .pending ∧ (t.table table).get? e = some p.record then
          (t.initialValue? table e property).or
            ((p.startStyles.get? property).map fun _ => t.content p.element property)
        else t.initialValue? table e property := by
  simp only [initialValue?, get?_table_step h hp]
  by_cases hlast : p.phase = .finished ∧ e = p.element
  · rw [if_pos hlast, if_pos hlast]
    rfl
  · rw [if_neg hlast, if_neg hlast]
    -- only the record to which the table leads is looked at
    cases hr : (t.table table).get? e with
    | none => simp
    | some r =>
      have hkept := (h.engaged n p hp).kept
      simp only [Option.bind_some, record_step, Option.some_inj, hkept, and_true]

/-- A player that plays on changes nothing that is remembered. -/
theorem initialValue?_step_of_started (h : InOrder table t) (hp : t.player? n = some p)
    (hphase : p.phase ≠ .pending) (hlast : p.phase = .finished → e ≠ p.element)
    (property : String) :
    (t.step n p).1.initialValue? table e property = t.initialValue? table e property := by
  rw [initialValue?_step h hp, if_neg fun hand => hlast hand.1 hand.2,
    if_neg fun hand => hphase hand.1]

/-! ### Calls -/

/-- A player that has started remembers nothing more, and nothing is forgotten before it is
destroyed. -/
theorem initialValue?_take_of_started (h : InOrder table t)
    (hstarted : ∀ p, t.player? n = some p → p.phase ≠ .pending) {goal : Phase}
    (hgoal : goal.rank ≤ Phase.finished.rank) (e : ElementId) (property : String) :
    (t.take goal n).1.initialValue? table e property = t.initialValue? table e property := by
  refine (take_induct (P := fun u => InOrder table u ∧
    (∀ p, u.player? n = some p → p.phase ≠ .pending) ∧
      u.initialValue? table e property = t.initialValue? table e property)
    ?_ ⟨h, hstarted, rfl⟩).2.2
  rintro u p hp hlt ⟨hu, hphase, hvalue⟩
  refine ⟨hu.step hp, fun q hq => started_of_step hp hq, ?_⟩
  rw [initialValue?_step_of_started hu hp (hphase p hp) _ property, hvalue]
  intro hfinished
  rw [hfinished] at hlt
  -- the step that destroys is beyond the goal
  exact absurd hgoal (Nat.not_le.2 hlt)

/-- Started or finished, a pending player leaves in its record what was there before. -/
theorem initialValue?_take (h : InOrder table t) (hp : t.player? n = some p) {goal : Phase}
    (hgoal : goal = .started ∨ goal = .finished) (e : ElementId) (property : String) :
    (t.take goal n).1.initialValue? table e property
      = if p.phase = .pending ∧ (t.table table).get? e = some p.record then
          (t.initialValue? table e property).or
            ((p.startStyles.get? property).map fun _ => t.content p.element property)
        else t.initialValue? table e property := by
  have hrank : goal.rank ≤ Phase.finished.rank := by rcases hgoal with rfl | rfl <;> decide
  by_cases hphase : p.phase = .pending
  · have hlt : p.phase.rank < goal.rank := by
      rw [hphase]
      rcases hgoal with rfl | rfl <;> decide
    have hnext : ∀ q, (t.step n p).1.player? n = some q → q.phase ≠ .pending :=
      fun q hq => started_of_step hp hq
    have hfinished : p.phase ≠ .finished := by
      rw [hphase]
      exact fun hphase => by cases hphase
    -- the first step remembers, and from then on nothing changes
    rw [take_of_lt hp hlt, initialValue?_take_of_started (h.step hp) hnext hrank,
      initialValue?_step h hp, if_neg fun hand => hfinished hand.1]
  · rw [if_neg fun hand => hphase hand.1]
    refine initialValue?_take_of_started h (fun q hq => ?_) hrank e property
    rw [hp] at hq
    cases hq
    exact hphase

/-- A player that is destroyed takes what is remembered of its element with it; nothing else
is remembered or forgotten. -/
theorem initialValue?_destroy (h : InOrder table t) (n : Nat) {value : Option (StyleValue τ)}
    (hvalue : (t.destroy n).1.initialValue? table e property = some value) :
    t.initialValue? table e property = some value := by
  cases hp : t.player? n with
  | none =>
    rw [destroy, take_of_none hp] at hvalue
    exact hvalue
  | some p =>
    by_cases hlt : p.phase.rank < Phase.destroyed.rank
    · -- up to the last step only the record of the player has changed
      obtain ⟨u, q, ⟨hu, helement, hothers⟩, hq, hrank, heq⟩ := take_last
        (P := fun u => InOrder table u ∧ (∀ q, u.player? n = some q → q.element = p.element) ∧
          ∀ e ≠ p.element, u.initialValue? table e property = t.initialValue? table e property)
        (by
          rintro u q hq - ⟨hu, helement, hothers⟩
          refine ⟨hu.step hq, fun q' hq' => ?_, fun e he => ?_⟩
          · rw [player?_step hq] at hq'
            cases hq'
            exact q.element_next.trans (helement q hq)
          · have hholder : (u.table table).get? e ≠ some q.record := by
              intro hr
              obtain ⟨he', -⟩ := (hu.attached e _ hr).players n q hq rfl
              exact he (he'.symm.trans (helement q hq))
            rw [initialValue?_step hu hq, if_neg fun hand => he (hand.2.trans (helement q hq)),
              if_neg fun hand => hholder hand.2, hothers e he])
        ⟨h, fun q hq => by rw [hp] at hq; cases hq; rfl, fun _ _ => rfl⟩ hp hlt
      have hphase : q.phase = .finished := by
        cases hphase : q.phase <;> simp_all [Phase.rank]
      rw [destroy, heq, initialValue?_step hu hq] at hvalue
      split at hvalue
      · cases hvalue
      · next hother =>
        have he : e ≠ p.element := fun he => hother ⟨hphase, he.trans (helement q hq).symm⟩
        rw [if_neg fun hand => by rw [hphase] at hand; cases hand.1] at hvalue
        exact (hothers e he).symm.trans hvalue
    · rw [destroy, take_of_reached hp (Nat.not_lt.1 hlt)] at hvalue
      exact hvalue

/-! ### Cues -/

/-- A cue starts a player that holds the record to which the table leads an element, and that
is the first to set a property among the players that hold it. -/
def SetsFirst (table : Nat) (t : Theatre τ) (c : Cue τ) (e : ElementId) (property : String) :
    Prop :=
  ∃ n p, (c = .start n ∨ c = .finish n) ∧ t.player? n = some p ∧ p.phase = .pending ∧
    (t.table table).get? e = some p.record ∧ property ∈ p.startStyles.keys ∧
      ∀ m q, t.player? m = some q → q.record = p.record → q.phase ≠ .pending →
        property ∉ q.startStyles.keys

theorem Cue.take_of_start_or_finish {c : Cue τ} (hc : c = .start n ∨ c = .finish n) (table : Nat)
    (t : Theatre τ) :
    ∃ goal, (goal = Phase.started ∨ goal = .finished) ∧ t.cue table c = (t.take goal n).1 := by
  rcases hc with rfl | rfl
  · exact ⟨.started, .inl rfl, rfl⟩
  · exact ⟨.finished, .inr rfl, rfl⟩

/-- What is set first is remembered as it is. -/
theorem initialValue?_of_setsFirst (h : InOrder table t) {c : Cue τ}
    (hc : SetsFirst table t c e property) :
    (t.cue table c).initialValue? table e property = some (t.content e property) := by
  obtain ⟨n, p, hstart, hp, hphase, hr, hproperty, hfirst⟩ := hc
  obtain ⟨goal, hgoal, hcue⟩ := Cue.take_of_start_or_finish hstart table t
  obtain ⟨helement, -⟩ := (h.attached e _ hr).players n p hp rfl
  -- if the record remembered it, one of its players would have set it before
  have hnew : t.initialValue? table e property = none := by
    rw [initialValue?, hr, Option.bind_some, ← Option.not_isSome_iff_eq_none,
      h.remembers_iff hr property]
    rintro ⟨m, q, hq, hrecord, hstarted, hmem⟩
    exact hfirst m q hq hrecord hstarted hmem
  have hvalue : (p.startStyles.get? property).isSome := by
    rw [OrderedMap.get?_isSome]
    exact OrderedMap.contains_iff_mem_keys.2 hproperty
  obtain ⟨value, hvalue⟩ := Option.isSome_iff_exists.1 hvalue
  rw [hcue, initialValue?_take h hp hgoal, if_pos ⟨hphase, hr⟩, hnew, hvalue, helement]
  rfl

/-- Making a player makes a table remember nothing. -/
theorem initialValue?_addPlayer (h : InOrder table t) (e' : ElementId)
    (keyframes : List (Keyframe τ)) (e : ElementId) (property : String) :
    (t.addPlayer table e' keyframes).initialValue? table e property
      = t.initialValue? table e property := by
  have hrecord : (t.addPlayer table e' keyframes).record = t.record :=
    funext (record_addPlayer table e' keyframes t)
  -- the table leads to the same record as before, or to a new one
  have htable : ((t.addPlayer table e' keyframes).table table).get? e = (t.table table).get? e ∨
      (t.table table).get? e = none ∧
        ((t.addPlayer table e' keyframes).table table).get? e = some t.records.length := by
    rw [addPlayer_eq]
    split
    · show ((t.recordFor table e').2.table table).get? e = _ ∨
        _ ∧ ((t.recordFor table e').2.table table).get? e = _
      rw [get?_table_recordFor h.table_lt]
      split
      · next he =>
        subst he
        cases hk : (t.table table).get? e with
        | some k => exact .inl (by rw [recordFor_of_known hk])
        | none => exact .inr ⟨rfl, by rw [recordFor_of_new hk]⟩
      · exact .inl rfl
    · exact .inl rfl
  rw [initialValue?, initialValue?, hrecord]
  rcases htable with hsame | ⟨hnone, hnew⟩
  · rw [hsame]
  · -- a new record is empty
    rw [hnone, hnew]
    simp [record]

/-- **What a cue makes a table remember**: nothing but what was remembered before, and what is
set first is remembered as it is. -/
theorem initialValue?_cue (h : InOrder table t) {c : Cue τ} {value : Option (StyleValue τ)}
    (hvalue : (t.cue table c).initialValue? table e property = some value) :
    t.initialValue? table e property = some value ∨
      SetsFirst table t c e property ∧ value = t.content e property := by
  -- started or finished, a player is the first or remembers nothing more
  have hcall : ∀ {n : Nat}, c = .start n ∨ c = .finish n →
      t.initialValue? table e property = some value ∨
        SetsFirst table t c e property ∧ value = t.content e property := by
    intro n hc
    obtain ⟨goal, hgoal, hcue⟩ := Cue.take_of_start_or_finish hc table t
    rw [hcue] at hvalue
    cases hp : t.player? n with
    | none =>
      rw [take_of_none hp] at hvalue
      exact .inl hvalue
    | some p =>
      rw [initialValue?_take h hp hgoal] at hvalue
      split at hvalue
      · next hfirst =>
        obtain ⟨hphase, hr⟩ := hfirst
        rcases Option.or_eq_some_iff.1 hvalue with hold | ⟨hnew, hnow⟩
        · exact .inl hold
        · obtain ⟨style, hstyle, rfl⟩ := Option.map_eq_some_iff.1 hnow
          obtain ⟨helement, -⟩ := (h.attached e _ hr).players n p hp rfl
          refine .inr ⟨⟨n, p, hc, hp, hphase, hr, ?_, fun m q hq hrecord hstarted hmem => ?_⟩, ?_⟩
          · rw [← OrderedMap.contains_iff_mem_keys, ← OrderedMap.get?_isSome, hstyle]
            rfl
          · have hsome := (h.remembers_iff hr property).2 ⟨m, q, hq, hrecord, hstarted, hmem⟩
            rw [initialValue?, hr, Option.bind_some] at hnew
            rw [hnew] at hsome
            cases hsome
          · rw [helement]
      · exact .inl hvalue
  cases c with
  | add e' keyframes =>
    left
    rw [← initialValue?_addPlayer h e' keyframes]
    exact hvalue
  | start n => exact hcall (.inl rfl)
  | finish n => exact hcall (.inr rfl)
  | destroy n => exact .inl (initialValue?_destroy h n hvalue)
  | drop n => exact .inl (initialValue?_destroy h n hvalue)

/-! ### Runs -/

/-- Of the elements of which a player has started and is not destroyed, only values are
remembered that were there before. -/
def Originals (table : Nat) (before : ElementId → String → Option (StyleValue τ))
    (t : Theatre τ) : Prop :=
  ∀ n p, t.player? n = some p → p.phase = .started ∨ p.phase = .finished →
    ∀ property value, t.initialValue? table p.element property = some value →
      value = before p.element property

/-- Nothing is remembered of an element without such a player. -/
theorem InOrder.originals_iff_forall (h : InOrder table t)
    (before : ElementId → String → Option (StyleValue τ)) :
    Originals table before t ↔ ∀ e property value,
      t.initialValue? table e property = some value → value = before e property := by
  constructor
  · intro horiginals e property value hvalue
    obtain ⟨r, hr, hknown⟩ := Option.bind_eq_some_iff.1 hvalue
    obtain ⟨-, hplayers, horigin⟩ := h.attached e r hr
    -- what is remembered was set by a player that is not destroyed
    obtain ⟨n, p, hp, hrecord, hpending, -⟩ := horigin property (by rw [hknown]; rfl)
    obtain ⟨rfl, hdestroyed⟩ := hplayers n p hp hrecord
    refine horiginals n p hp ?_ property value hvalue
    cases hphase : p.phase <;> simp_all
  · intro hall n p hp hphase property value
    exact hall p.element property value

/-- **When a table remembers originals only**: in every state of a run on a new table, what it
remembers of elements with players is what was there in the beginning, if and only if whatever
is set first is still as it was in the beginning when it is set. -/
theorem originals_iff (fresh : Fresh table t) (cues : List (Cue τ)) :
    (∀ past, past <+: cues → Originals table t.content (t.cueAll table past)) ↔
      ∀ past c, past ++ [c] <+: cues → ∀ e property,
        SetsFirst table (t.cueAll table past) c e property →
          (t.cueAll table past).content e property = t.content e property := by
  have hcue : ∀ past c, t.cueAll table (past ++ [c]) = (t.cueAll table past).cue table c := by
    intro past c
    rw [cueAll, List.foldl_append]
    rfl
  constructor
  · intro horiginals past c hprefix e property hfirst
    -- what is set first is remembered as it is, so as an original it is what was there
    have hremembered := initialValue?_of_setsFirst (fresh.inOrder past) hfirst
    rw [← hcue] at hremembered
    exact ((fresh.inOrder _).originals_iff_forall t.content).1 (horiginals _ hprefix) e property _
      hremembered
  · intro hfirst past
    -- by induction on the run: a value is remembered from before, or it is set first
    induction past using List.reverseRecOn with
    | nil =>
      intro _ n p hp
      rw [cueAll, List.foldl_nil, player?, fresh.players] at hp
      cases hp
    | append_singleton past c ih =>
      intro hprefix
      have hbefore := ih ((List.prefix_append past [c]).trans hprefix)
      rw [(fresh.inOrder _).originals_iff_forall] at hbefore ⊢
      intro e property value hvalue
      rw [hcue] at hvalue
      rcases initialValue?_cue (fresh.inOrder past) hvalue with hold | ⟨hsets, rfl⟩
      · exact hbefore e property value hold
      · exact hfirst past c hprefix e property hsets

theorem fresh_showing (property value : String) : Fresh 0 (showing property value) :=
  ⟨Nat.zero_lt_one, rfl, fun _ => rfl⟩

/-- A property that flips at both ends. -/
def blinking : List (Keyframe Nat) := flip ("display", "block") ("display", "none")

/-- Two players of one element start one after the other: the second one finds that the first
one has set the property before. -/
theorem originals_iff_pair :
    let t := showing "display" "inline"
    let cues := [.add ⟨5⟩ blinking, .start 0, .add ⟨5⟩ blinking, .start 1]
    Fresh 0 t ∧ ∀ past, past <+: cues → Originals 0 t.content (t.cueAll 0 past) := by
  intro t cues
  have fresh : Fresh 0 t := fresh_showing "display" "inline"
  refine ⟨fresh, (originals_iff fresh cues).2 ?_⟩
  rintro past c ⟨rest, hcues⟩ e property ⟨n, p, hc, hp, -, hr, hproperty, hfirst⟩
  rcases past with _ | ⟨c₁, _ | ⟨c₂, _ | ⟨c₃, _ | ⟨c₄, past⟩⟩⟩⟩ <;>
    simp [cues] at hcues
  · obtain ⟨rfl, -⟩ := hcues
    simp at hc
  · -- nothing has been set yet
    obtain ⟨rfl, -⟩ := hcues
    rfl
  · obtain ⟨rfl, rfl, rfl, -⟩ := hcues
    simp at hc
  · -- the first player has the same record
    obtain ⟨rfl, rfl, rfl, rfl, -⟩ := hcues
    obtain rfl : 1 = n := by simpa using hc
    obtain rfl := Option.some_inj.1 ((Option.some_get (by decide)).symm.trans hp)
    have hkeys : property = "display" := List.mem_singleton.1 hproperty
    subst hkeys
    refine hfirst 0 _ (Option.some_get ?_).symm ?_ ?_ ?_ |>.elim <;> decide

/-- When a record is forgotten, those that still hold it play on, and the next player takes
what they show for what was there before. -/
theorem not_originals_forgotten :
    let t := showing "display" "inline"
    let cues := [.add ⟨5⟩ blinking, .add ⟨5⟩ blinking, .start 0, .start 1, .destroy 1, .finish 0,
      .add ⟨5⟩ blinking, .start 2]
    Fresh 0 t ∧ ¬Originals 0 t.content (t.cueAll 0 cues) := by
  intro t cues
  have hlast : ((t.cueAll 0 cues).player? 2).map (fun p => (p.element, p.phase))
      = some (⟨5⟩, .started) := by decide +kernel
  have hvalue : (t.cueAll 0 cues).initialValue? 0 ⟨5⟩ "display"
      = some (some (.literal (.text "none"))) := by decide +kernel
  obtain ⟨p, hp, hpair⟩ := Option.map_eq_some_iff.1 hlast
  obtain ⟨helement, hphase⟩ := Prod.mk.inj hpair
  refine ⟨fresh_showing "display" "inline", fun horiginals => ?_⟩
  have horiginal := horiginals 2 p hp (.inl hphase) "display" (some (.literal (.text "none")))
  rw [helement] at horiginal
  exact absurd (horiginal hvalue) (by decide)

/-- What a player sets at its end only, the next one takes for what was there before. -/
example : ((showing "position" "relative").cueAll 0
    [.add ⟨5⟩ (flip ("display", "block") ("position", "absolute")), .finish 0,
      .add ⟨5⟩ (flip ("position", "fixed") ("position", "static")), .start 1]).initialValue?
        0 ⟨5⟩ "position" = some (some (.literal (.text "absolute"))) := by
  decide +kernel

end Theatre

end Choreography
