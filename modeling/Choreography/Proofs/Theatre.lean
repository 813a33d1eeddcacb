/-
Choreography/Proofs/Theatre.lean

What players do to the live styles.

The `content` of a theatre is what is set on which element, without the order in which it
was set.  Every call that a player makes is an assignment to a property of its element, of
a value or of none, so what a phase does to the content is one update at that element
(`content_enterStarted`, `content_enterFinished`, `content_enterDestroyed`).  The record of
the player grows when it starts, and never changes again.

A player reaches a phase step by step: what every step keeps, `take` keeps (`take_induct`),
and a player that has a way to go makes a last step (`take_last`).  What every cue keeps, a
run of cues keeps (`cueAll_induct`).
-/
import Mathlib.Logic.Function.Basic
import Choreography.Playback

namespace Choreography

variable {τ : Type}

/-! ### Assignments -/

/-- The call that gives a property a value, or takes its value away. -/
def StyleCall.assign (e : ElementId) : String × Option (StyleValue τ) → StyleCall τ
  | (property, some value) => .set e property value
  | (property, none) => .erase e property

namespace Theatre

/-- What is set on which element. -/
def content (t : Theatre τ) (e : ElementId) (property : String) : Option (StyleValue τ) :=
  t.live.get? (e, property)

/-- The content after assignments to the properties of an element. -/
def assigned (e : ElementId) (values : String → Option (Option (StyleValue τ)))
    (content : ElementId → String → Option (StyleValue τ)) :
    ElementId → String → Option (StyleValue τ) :=
  Function.update content e fun property => (values property).getD (content e property)

@[simp] theorem assigned_self (e : ElementId) (values : String → Option (Option (StyleValue τ)))
    (content : ElementId → String → Option (StyleValue τ)) (property : String) :
    assigned e values content e property = (values property).getD (content e property) := by
  simp [assigned]

/-- Other elements are not affected. -/
theorem assigned_of_ne {e e' : ElementId} (h : e' ≠ e)
    (values : String → Option (Option (StyleValue τ)))
    (content : ElementId → String → Option (StyleValue τ)) :
    assigned e values content e' = content e' := by
  simp [assigned, h]

/-- Of two rounds of assignments the later one counts where it says something. -/
theorem assigned_assigned (e : ElementId)
    (values later : String → Option (Option (StyleValue τ)))
    (content : ElementId → String → Option (StyleValue τ)) :
    assigned e later (assigned e values content)
      = assigned e (fun property => (later property).or (values property)) content := by
  funext e' property
  -- elsewhere than at the element neither round does anything
  by_cases he : e' = e
  · subst he
    simp only [assigned_self]
    cases later property <;> rfl
  · simp only [assigned_of_ne he]

theorem assigned_congr {e : ElementId} {values values' : String → Option (Option (StyleValue τ))}
    {content : ElementId → String → Option (StyleValue τ)}
    (h : ∀ property, (values property).getD (content e property)
      = (values' property).getD (content e property)) :
    assigned e values content = assigned e values' content := by
  simp only [assigned, h]

/-- Assignments change nothing just if every property has its value already. -/
theorem assigned_eq_self_iff {e : ElementId} {values : String → Option (Option (StyleValue τ))}
    {content : ElementId → String → Option (StyleValue τ)} :
    assigned e values content = content
      ↔ ∀ property, (values property).getD (content e property) = content e property := by
  rw [assigned, Function.update_eq_self_iff, funext_iff]

theorem perform_append (calls more : List (StyleCall τ)) (t : Theatre τ) :
    t.perform (calls ++ more) = (t.perform calls).perform more := by
  simp only [perform, List.foldl_append]

/-- One call changes the value of one property of one element. -/
theorem content_perform_assign (e : ElementId) (a : String × Option (StyleValue τ))
    (t : Theatre τ) (e' : ElementId) (property : String) :
    (t.perform [.assign e a]).content e' property
      = if (e', property) = (e, a.1) then a.2 else t.content e' property := by
  obtain ⟨p, value⟩ := a
  cases value with
  | some value => exact OrderedMap.get?_insert t.live (e, p) (e', property) value
  | none => exact OrderedMap.get?_erase t.live (e, p) (e', property)

/-- A record that is put back is one update at its element. -/
theorem content_perform_assignAll (e : ElementId) (r : Record τ) (t : Theatre τ) :
    (t.perform (r.entries.map (.assign e))).content = assigned e r.get? t.content := by
  obtain ⟨as, h⟩ := r
  have hlookup : (⟨as, h⟩ : Record τ).get? = (as.lookup ·) :=
    funext (OrderedMap.get?_eq_lookup ⟨as, h⟩)
  rw [hlookup]
  clear hlookup
  -- on the entries; the theatre has to be arbitrary, as each call changes it
  induction as generalizing t with
  | nil => exact (Function.update_eq_self e t.content).symm
  | cons a rest ih =>
    obtain ⟨hnew, hrest⟩ := List.nodup_cons.1 h
    obtain ⟨p, value⟩ := a
    funext e' property
    show ((t.perform [.assign e (p, value)]).perform (rest.map (.assign e))).content e' property = _
    rw [ih _ hrest]
    by_cases he : e' = e
    · subst he
      by_cases hp : property = p
      · subst hp
        -- the keys are distinct, so nothing later undoes the first assignment
        have hnone : rest.lookup property = none := by
          rw [List.lookup_eq_none_iff]
          intro b hb
          simpa using fun hab : property = b.1 => hnew (List.mem_map.2 ⟨b, hb, hab.symm⟩)
        simp [assigned, hnone, content_perform_assign, List.lookup_cons]
      · have hb : (property == p) = false := by simpa using hp
        simp [assigned, content_perform_assign, List.lookup_cons, hb, hp]
    · simp [assigned, he, content_perform_assign]

theorem content_perform_restoring (e : ElementId) (r : Record τ) (t : Theatre τ) :
    (t.perform (restoring e r)).content = assigned e r.get? t.content := by
  exact content_perform_assignAll e r t

/-- Setting styles gives each of their properties its value. -/
theorem content_perform_setting (e : ElementId) (styles : StyleMap τ) (t : Theatre τ) :
    (t.perform (styles.entries.map fun entry => .set e entry.1 entry.2)).content
      = assigned e (fun property => (styles.get? property).map some) t.content := by
  have h := content_perform_assignAll e (styles.mapEntries fun _ => some) t
  rw [funext (OrderedMap.get?_mapEntries (fun _ => some) styles)] at h
  rw [← h, OrderedMap.mapEntries, List.map_map]
  rfl

/-- Erasing styles takes the value of each of their properties away. -/
theorem content_perform_erasing (e : ElementId) (styles : StyleMap τ) (t : Theatre τ) :
    (t.perform (styles.keys.map (.erase e))).content
      = assigned e (fun property => (styles.get? property).map fun _ => none) t.content := by
  -- erasing is assigning no value, so the lemma about assignments applies
  have h := content_perform_assignAll e (styles.mapEntries fun _ _ => none) t
  rw [funext (OrderedMap.get?_mapEntries (fun _ _ => none) styles)] at h
  rw [← h, OrderedMap.mapEntries, OrderedMap.keys, List.map_map, List.map_map]
  rfl

/-! ### Starting -/

theorem record_modify (t : Theatre τ) (n : Nat) (f : Record τ → Record τ) (m : Nat) :
    record { t with records := t.records.modify n f } m
      = if m = n ∧ n < t.records.length then f (t.record n) else t.record m := by
  simp only [record, List.getD_eq_getElem?_getD, List.getElem?_modify]
  by_cases h : m = n
  · subst h
    by_cases hn : m < t.records.length
    · simp [hn]
    · simp [hn]
  · simp [h, Ne.symm h]

/-- The theatre in which the record of a player remembers what the properties of styles
are now, unless it remembers something of them already. -/
def remembering (p : Player τ) (styles : List (String × StyleValue τ)) (t : Theatre τ) :
    Theatre τ :=
  { t with
    records := t.records.modify p.record fun r =>
      r.fill (styles.map fun entry => (entry.1, t.content p.element entry.1)) }

/-- How a record is changed matters at its present content only. -/
theorem modify_records_congr {t : Theatre τ} {n : Nat} {f g : Record τ → Record τ}
    (h : f (t.record n) = g (t.record n)) : t.records.modify n f = t.records.modify n g := by
  apply List.ext_getElem?
  intro i
  rw [List.getElem?_modify, List.getElem?_modify]
  by_cases hi : n = i
  · subst hi
    cases hr : t.records[n]? with
    | none => rfl
    | some r =>
      -- the two changes agree at this record, and there is no other to which they are applied
      have hrecord : t.record n = r := by simp [record, List.getD_eq_getElem?_getD, hr]
      rw [hrecord] at h
      simp [h]
  · simp [hi]

/-- A start style is remembered first and set then. -/
theorem setStartStyle_fst (p : Player τ) (property : String) (value : StyleValue τ)
    (t : Theatre τ) :
    (t.setStartStyle p property value).1
      = (t.remembering p [(property, value)]).perform [.set p.element property value] := by
  have hfill : ∀ f : Record τ → Record τ,
      f (t.record p.record) = (t.record p.record).fill [(property, t.content p.element property)] →
      { t with records := t.records.modify p.record f } = t.remembering p [(property, value)] :=
    fun f h => congrArg (Theatre.mk t.live · t.tables t.players) (modify_records_congr h)
  -- a property that is remembered already keeps what it was before all
  by_cases known : (t.record p.record).contains property = true
  · have hsame := hfill id (by simp [OrderedMap.fill, known])
    rw [← hsame]
    simp [setStartStyle, known, List.modify_id]
  · have hnew := hfill (·.insert property (t.content p.element property))
      (by simp [OrderedMap.fill, known])
    rw [← hnew]
    simp only [setStartStyle, known, Bool.false_eq_true, if_false]
    rfl

/-- Setting start styles fills the record, and then only sets. -/
theorem setStartStyles_fst (p : Player τ) {styles : List (String × StyleValue τ)}
    (h : (styles.map Prod.fst).Nodup) (t : Theatre τ) :
    (t.setStartStyles p styles).1
      = (t.remembering p styles).perform
          (styles.map fun entry => .set p.element entry.1 entry.2) := by
  induction styles generalizing t with
  | nil =>
    show t = { t with records := t.records.modify p.record id }
    rw [List.modify_id]
  | cons entry rest ih =>
    obtain ⟨hnew, hrest⟩ := List.nodup_cons.1 h
    show ((t.setStartStyle p entry.1 entry.2).1.setStartStyles p rest).1 = _
    rw [ih hrest, setStartStyle_fst]
    -- what the rest remembers is not touched by the first style
    have hkept : (rest.map fun later => (later.1,
          ((t.remembering p [entry]).perform [.set p.element entry.1 entry.2]).content
            p.element later.1))
        = rest.map fun later => (later.1, t.content p.element later.1) := by
      apply List.map_congr_left
      intro later hlater
      have hne : later.1 ≠ entry.1 := fun heq => hnew (heq ▸ List.mem_map_of_mem hlater)
      have hkeep := content_perform_assign p.element (entry.1, some entry.2)
        (t.remembering p [entry]) p.element later.1
      rw [if_neg (by simpa using hne)] at hkeep
      exact congrArg _ hkeep
    have hswap : ((t.remembering p [entry]).perform
          [.set p.element entry.1 entry.2]).remembering p rest
        = (t.remembering p (entry :: rest)).perform [.set p.element entry.1 entry.2] := by
      refine congrArg (Theatre.mk _ · t.tables t.players) ?_
      rw [hkept]
      exact List.modify_modify_eq _ _ _ _
    exact congrArg (perform _) hswap

/-! ### Phases -/

/-- Starting sets the start styles. -/
theorem content_enterStarted (n : Nat) (p : Player τ) (t : Theatre τ) :
    (t.enterStarted n p).1.content
      = assigned p.element (fun property => (p.startStyles.get? property).map some) t.content := by
  show (t.setStartStyles p p.startStyles.entries).1.content = _
  rw [setStartStyles_fst p p.startStyles.nodup]
  -- remembering does not touch the live styles
  exact content_perform_setting p.element p.startStyles (t.remembering p p.startStyles.entries)

/-- Finishing puts the record back and sets the end styles. -/
theorem content_enterFinished (n : Nat) (p : Player τ) (t : Theatre τ) :
    (t.enterFinished n p).1.content
      = assigned p.element (fun property => (p.endStyles.get? property).map some)
          (assigned p.element (t.record p.record).get? t.content) := by
  show (t.perform (_ ++ _)).content = _
  rw [perform_append, ← content_perform_restoring]
  exact content_perform_setting p.element p.endStyles _

/-- Destruction erases the styles of both ends and puts the record back. -/
theorem content_enterDestroyed (n : Nat) (p : Player τ) (t : Theatre τ) :
    (t.enterDestroyed n p).1.content
      = assigned p.element (t.record p.record).get?
          (assigned p.element (fun property => (p.endStyles.get? property).map fun _ => none)
            (assigned p.element (fun property => (p.startStyles.get? property).map fun _ => none)
              t.content)) := by
  show (perform (List.map _ (_ ++ _) ++ _) (Theatre.mk t.live t.records _ t.players)).content = _
  rw [List.map_append, perform_append, perform_append, content_perform_restoring,
    content_perform_erasing, content_perform_erasing]
  rfl

/-- Starting adds to the record what the start styles replace, and overwrites nothing in it. -/
theorem record_enterStarted (n : Nat) (p : Player τ) (t : Theatre τ) (m : Nat) (property : String) :
    ((t.enterStarted n p).1.record m).get? property
      = if m = p.record ∧ p.record < t.records.length then
          ((t.record m).get? property).or
            ((p.startStyles.get? property).map fun _ => t.content p.element property)
        else (t.record m).get? property := by
  show ((t.setStartStyles p p.startStyles.entries).1.record m).get? property = _
  rw [setStartStyles_fst p p.startStyles.nodup]
  show ((t.remembering p p.startStyles.entries).record m).get? property = _
  rw [remembering, record_modify]
  split
  · next h =>
    have hmap := p.startStyles.get?_mapEntries (fun property _ => t.content p.element property)
    rw [OrderedMap.get?_fill, h.1, ← hmap, OrderedMap.get?_eq_lookup (OrderedMap.mapEntries _ _)]
    rfl
  · rfl

end Theatre

theorem Phase.rank_le (phase : Phase) : phase.rank ≤ Phase.destroyed.rank := by
  cases phase <;> decide

theorem Phase.eq_destroyed {phase : Phase} (h : Phase.destroyed.rank ≤ phase.rank) :
    phase = .destroyed := by
  cases phase <;> simp [rank] at h ⊢

/-- The player after its next phase. -/
def Player.next (p : Player τ) : Player τ :=
  match p.phase with
  | .pending => { p with phase := .started }
  | .started => { p with phase := .finished }
  | .finished => { p with phase := .destroyed, startStyles := ∅, endStyles := ∅ }
  | .destroyed => p

@[simp] theorem Player.element_next (p : Player τ) : p.next.element = p.element := by
  unfold Player.next
  split <;> rfl

@[simp] theorem Player.table_next (p : Player τ) : p.next.table = p.table := by
  unfold Player.next
  split <;> rfl

@[simp] theorem Player.record_next (p : Player τ) : p.next.record = p.record := by
  unfold Player.next
  split <;> rfl

/-- The styles of a player are forgotten in its last phase. -/
theorem Player.styles_next {p : Player τ} (h : p.phase ≠ .finished) :
    p.next.startStyles = p.startStyles ∧ p.next.endStyles = p.endStyles := by
  unfold Player.next
  split
  · exact ⟨rfl, rfl⟩
  · exact ⟨rfl, rfl⟩
  · rename_i hphase
    exact absurd hphase h
  · exact ⟨rfl, rfl⟩

theorem Player.phase_next_ne_pending (p : Player τ) : p.next.phase ≠ .pending := by
  unfold Player.next
  split <;> simp_all

/-- Until it is destroyed, the next phase of a player is one further on. -/
theorem Player.rank_next {p : Player τ} (h : p.phase ≠ .destroyed) :
    p.next.phase.rank = p.phase.rank + 1 := by
  unfold Player.next
  cases hp : p.phase <;> simp_all [Phase.rank]

theorem Player.rank_next_of_lt {p : Player τ} {goal : Phase} (h : p.phase.rank < goal.rank) :
    p.next.phase.rank = p.phase.rank + 1 := by
  apply Player.rank_next
  intro hd
  rw [hd] at h
  exact absurd h (Nat.not_lt.2 (Phase.rank_le goal))

namespace Theatre

/-! ### Steps -/

theorem lt_of_player? {t : Theatre τ} {n : Nat} {p : Player τ} (h : t.player? n = some p) :
    n < t.players.length := by
  by_contra hn
  simp [player?, List.getElem?_eq_none (Nat.le_of_not_lt hn)] at h

theorem player?_setPlayer {t : Theatre τ} {n : Nat} (h : n < t.players.length) (p : Player τ)
    (m : Nat) : (t.setPlayer n p).player? m = if m = n then some p else t.player? m := by
  simp only [player?, setPlayer, List.getElem?_set]
  by_cases hm : m = n
  · subst hm
    simp [h]
  · simp [hm, Ne.symm hm]

/-- A step takes its player on, and leaves the others, the tables and the number of records
as they are; only the last one takes a record out of its table. -/
structure Steps (n : Nat) (p : Player τ) (t t' : Theatre τ) : Prop where
  player? : ∀ m, t'.player? m = if m = n then some p.next else t.player? m
  length : t'.players.length = t.players.length
  records : t'.records.length = t.records.length
  tables : t'.tables = if p.phase = .finished then t.tables.modify p.table (·.erase p.element)
    else t.tables

/-- What a step does to players, tables and records, phase by phase. -/
theorem steps_step {n : Nat} {p : Player τ} {t : Theatre τ} (h : t.player? n = some p) :
    Steps n p t (t.step n p).1 := by
  have hn := lt_of_player? h
  unfold step
  cases hp : p.phase with
  | pending =>
    have hnext : p.next = { p with phase := .started } := by simp [Player.next, hp]
    -- starting touches the records and the live styles only
    have hfst := setStartStyles_fst p p.startStyles.nodup t
    have hplayers : (t.setStartStyles p p.startStyles.entries).1.players = t.players := by
      rw [hfst]
      rfl
    refine ⟨fun m => ?_, ?_, ?_, ?_⟩
    · show ((t.setStartStyles p p.startStyles.entries).1.setPlayer n _).player? m = _
      rw [player?_setPlayer (by rw [hplayers]; exact hn), hnext]
      simp only [Theatre.player?, hplayers]
    · show ((t.setStartStyles p p.startStyles.entries).1.players.set n _).length = _
      rw [hplayers, List.length_set]
    · show (t.setStartStyles p p.startStyles.entries).1.records.length = _
      rw [hfst]
      exact List.length_modify ..
    · show (t.setStartStyles p p.startStyles.entries).1.tables = _
      rw [hfst, hp]
      rfl
  | started =>
    have hnext : p.next = { p with phase := .finished } := by simp [Player.next, hp]
    exact ⟨hnext ▸ player?_setPlayer hn _, List.length_set .., rfl, by rw [hp]; rfl⟩
  | finished =>
    have hnext : p.next = { p with phase := .destroyed, startStyles := ∅, endStyles := ∅ } := by
      simp [Player.next, hp]
    exact ⟨hnext ▸ player?_setPlayer hn _, List.length_set .., rfl, by rw [hp]; rfl⟩
  | destroyed =>
    have hnext : p.next = p := by simp [Player.next, hp]
    -- a destroyed player stays as it is
    refine ⟨fun m => ?_, rfl, rfl, by rw [hp]; rfl⟩
    show t.player? m = _
    by_cases hm : m = n
    · simp [hm, hnext, h]
    · simp [hm]

/-- Only a start writes to a record. -/
theorem records_step {n : Nat} {p : Player τ} {t : Theatre τ} (h : p.phase ≠ .pending) :
    (t.step n p).1.records = t.records := by
  unfold Theatre.step
  split
  · next hp => exact absurd hp h
  · rfl
  · rfl
  · rfl

/-! ### Runs to a phase -/

/-- What every step on the way keeps, an advance keeps. -/
theorem advance_induct {P : Theatre τ → Prop} {goal : Phase} {n : Nat}
    (hstep : ∀ t p, t.player? n = some p → p.phase.rank < goal.rank → P t → P (t.step n p).1)
    (fuel : Nat) {t : Theatre τ} (h : P t) : P (t.advance goal n fuel).1 := by
  -- on the steps that are left; a player that has arrived makes none of them
  induction fuel generalizing t with
  | zero => exact h
  | succ fuel ih =>
    rw [advance]
    split
    · next p hp =>
      split
      · next hlt => exact ih (hstep t p hp hlt h)
      · exact h
    · exact h

/-- What every step on the way to a phase keeps, going there keeps. -/
theorem take_induct {P : Theatre τ → Prop} {goal : Phase} {n : Nat}
    (hstep : ∀ t p, t.player? n = some p → p.phase.rank < goal.rank → P t → P (t.step n p).1)
    {t : Theatre τ} (h : P t) : P (t.take goal n).1 :=
  advance_induct hstep 3 h

/-- After a step the player is in its next phase. -/
theorem player?_step {n : Nat} {t : Theatre τ} {p : Player τ} (h : t.player? n = some p) :
    (t.step n p).1.player? n = some p.next := by
  simpa using (steps_step h).player? n

/-- After a step a player has started. -/
theorem started_of_step {n : Nat} {t : Theatre τ} {p q : Player τ} (h : t.player? n = some p)
    (hq : (t.step n p).1.player? n = some q) : q.phase ≠ .pending := by
  rw [player?_step h] at hq
  cases hq
  exact p.phase_next_ne_pending

/-- A player that has a way to go makes a step, and then the rest of it. -/
theorem advance_of_lt {goal : Phase} {n : Nat} {t : Theatre τ} {p : Player τ}
    (h : t.player? n = some p) (hlt : p.phase.rank < goal.rank) (fuel : Nat) :
    t.advance goal n (fuel + 1) = (((t.step n p).1.advance goal n fuel).1,
      (t.step n p).2 ++ ((t.step n p).1.advance goal n fuel).2) := by
  simp [advance, h, hlt]

theorem advance_of_reached {goal : Phase} {n : Nat} {t : Theatre τ} {p : Player τ}
    (h : t.player? n = some p) (hgoal : goal.rank ≤ p.phase.rank) (fuel : Nat) :
    t.advance goal n fuel = (t, []) := by
  cases fuel with
  | zero => rfl
  | succ fuel => simp [advance, h, Nat.not_lt.2 hgoal]

/-- More than it takes to reach a phase makes no difference. -/
theorem advance_succ_of_enough {goal : Phase} {n fuel : Nat} {t : Theatre τ} {p : Player τ}
    (h : t.player? n = some p) (henough : goal.rank ≤ p.phase.rank + fuel) :
    t.advance goal n (fuel + 1) = t.advance goal n fuel := by
  induction fuel generalizing t p with
  | zero => exact advance_of_reached h henough 1
  | succ fuel ih =>
    by_cases hlt : p.phase.rank < goal.rank
    · have hrank := Player.rank_next_of_lt hlt
      rw [advance_of_lt h hlt, advance_of_lt h hlt, ih (player?_step h) (by omega)]
    · have hgoal := Nat.not_lt.1 hlt
      rw [advance_of_reached h hgoal, advance_of_reached h hgoal]

/-- On its way to a phase a player makes a step first. -/
theorem take_eq_of_lt {goal : Phase} {n : Nat} {t : Theatre τ} {p : Player τ}
    (h : t.player? n = some p) (hlt : p.phase.rank < goal.rank) :
    t.take goal n = (((t.step n p).1.take goal n).1,
      (t.step n p).2 ++ ((t.step n p).1.take goal n).2) := by
  have hgoal : goal.rank ≤ 3 := Phase.rank_le goal
  have hrank := Player.rank_next_of_lt hlt
  -- three steps are enough from anywhere, so two are from the next phase on
  have henough : goal.rank ≤ p.next.phase.rank + 2 := by omega
  rw [take, advance_of_lt h hlt, take, advance_succ_of_enough (player?_step h) henough]

theorem take_of_lt {goal : Phase} {n : Nat} {t : Theatre τ} {p : Player τ}
    (h : t.player? n = some p) (hlt : p.phase.rank < goal.rank) :
    (t.take goal n).1 = ((t.step n p).1.take goal n).1 := by
  rw [take_eq_of_lt h hlt]

theorem take_eq_of_reached {n : Nat} {t : Theatre τ} {p : Player τ} (h : t.player? n = some p)
    {goal : Phase} (hgoal : goal.rank ≤ p.phase.rank) : t.take goal n = (t, []) :=
  advance_of_reached h hgoal 3

theorem take_of_reached {goal : Phase} {n : Nat} {t : Theatre τ} {p : Player τ}
    (h : t.player? n = some p) (hgoal : goal.rank ≤ p.phase.rank) : (t.take goal n).1 = t := by
  rw [take_eq_of_reached h hgoal]

/-- A player on its way makes a last step, if there is fuel for it. -/
theorem advance_last {P : Theatre τ → Prop} {goal : Phase} {n : Nat}
    (hstep : ∀ t p, t.player? n = some p → p.phase.rank < goal.rank → P t → P (t.step n p).1)
    {fuel : Nat} {t : Theatre τ} {p : Player τ} (h : P t) (hp : t.player? n = some p)
    (hlt : p.phase.rank < goal.rank) (hfuel : goal.rank ≤ p.phase.rank + fuel) :
    ∃ u q, P u ∧ u.player? n = some q ∧ q.phase.rank + 1 = goal.rank
      ∧ (t.advance goal n fuel).1 = (u.step n q).1 := by
  induction fuel generalizing t p with
  | zero => omega
  | succ fuel ih =>
    have hrank := Player.rank_next_of_lt hlt
    have hnext := player?_step hp
    have hrun := congrArg Prod.fst (advance_of_lt hp hlt fuel)
    -- either this step is the last one, or there is one among the rest
    by_cases hlast : p.phase.rank + 1 = goal.rank
    · have hstop : ((t.step n p).1.advance goal n fuel).1 = (t.step n p).1 := by
        rw [advance_of_reached hnext (by omega)]
      exact ⟨t, p, h, hp, hlast, hrun.trans hstop⟩
    · obtain ⟨u, q, hu, hq, hgoal, heq⟩ :=
        ih (hstep t p hp hlt h) hnext (by omega) (by omega)
      exact ⟨u, q, hu, hq, hgoal, hrun.trans heq⟩

/-- A player on its way to a phase makes a last step, up to which all is kept that every
step keeps. -/
theorem take_last {P : Theatre τ → Prop} {goal : Phase} {n : Nat}
    (hstep : ∀ t p, t.player? n = some p → p.phase.rank < goal.rank → P t → P (t.step n p).1)
    {t : Theatre τ} {p : Player τ} (h : P t) (hp : t.player? n = some p)
    (hlt : p.phase.rank < goal.rank) :
    ∃ u q, P u ∧ u.player? n = some q ∧ q.phase.rank + 1 = goal.rank
      ∧ (t.take goal n).1 = (u.step n q).1 := by
  exact advance_last hstep h hp hlt (Nat.le_trans (Phase.rank_le goal) (Nat.le_add_left ..))

/-- Taken to a phase, a player is there, or further on if it was. -/
theorem rank_take {n : Nat} {t : Theatre τ} {p : Player τ} (h : t.player? n = some p)
    (goal : Phase) : ∃ q, (t.take goal n).1.player? n = some q
      ∧ q.phase.rank = max p.phase.rank goal.rank := by
  by_cases hlt : p.phase.rank < goal.rank
  · obtain ⟨u, q, -, hq, hrank, heq⟩ := take_last (P := fun _ => True) (fun _ _ _ _ _ => trivial)
      trivial h hlt
    -- the last step leads to the goal, so it does not start at the end
    have hlast : q.phase ≠ .destroyed := by
      intro hd
      have := Phase.rank_le goal
      rw [hd] at hrank
      omega
    refine ⟨q.next, ?_, ?_⟩
    · rw [heq]
      exact player?_step hq
    · rw [Player.rank_next hlast, hrank, Nat.max_eq_right (Nat.le_of_lt hlt)]
  · have hgoal := Nat.not_lt.1 hlt
    refine ⟨p, ?_, (Nat.max_eq_left hgoal).symm⟩
    rw [take_eq_of_reached h hgoal]
    exact h

/-- Taken to a phase, a player has reached it. -/
theorem player?_take {n : Nat} {t : Theatre τ} {p : Player τ} (h : t.player? n = some p)
    (goal : Phase) : ∃ q, (t.take goal n).1.player? n = some q ∧ goal.rank ≤ q.phase.rank := by
  obtain ⟨q, hq, hrank⟩ := rank_take h goal
  exact ⟨q, hq, hrank ▸ Nat.le_max_right _ _⟩

theorem take_eq_of_none {n : Nat} {t : Theatre τ} (h : t.player? n = none) (goal : Phase) :
    t.take goal n = (t, []) := by
  simp [take, advance, h]

theorem take_of_none {n : Nat} {t : Theatre τ} (h : t.player? n = none) (goal : Phase) :
    (t.take goal n).1 = t := by
  rw [take_eq_of_none h]

/-- A dropped player is destroyed and then gone. -/
theorem player?_drop (n : Nat) (t : Theatre τ) (m : Nat) :
    (t.drop n).1.player? m = if m = n then none else (t.destroy n).1.player? m := by
  show (((t.destroy n).1.players.set n none)[m]?).join = _
  rw [List.getElem?_set]
  by_cases hm : n = m
  · subst hm
    by_cases hn : n < (t.destroy n).1.players.length
    · simp [hn]
    · simp [hn]
  · simp [hm, Ne.symm hm, player?]

/-! ### New players -/

theorem recordFor_of_known {table : Nat} {e : ElementId} {t : Theatre τ} {r : Nat}
    (h : (t.table table).get? e = some r) : t.recordFor table e = (r, t) := by
  simp [recordFor, h]

/-- A new element gets an empty record, and the table leads to it. -/
theorem recordFor_of_new {table : Nat} {e : ElementId} {t : Theatre τ}
    (h : (t.table table).get? e = none) :
    t.recordFor table e = (t.records.length,
      { t with
        records := t.records ++ [∅]
        tables := t.tables.modify table (·.insert e t.records.length) }) := by
  simp [recordFor, h]

/-- Looking for a record changes no live style, no player and no record that there is. -/
theorem recordFor_keeps (table : Nat) (e : ElementId) (t : Theatre τ) :
    (t.recordFor table e).2.live = t.live ∧ (t.recordFor table e).2.players = t.players
      ∧ ∀ m, (t.recordFor table e).2.record m = t.record m := by
  cases h : (t.table table).get? e with
  | some r =>
    rw [recordFor_of_known h]
    exact ⟨rfl, rfl, fun _ => rfl⟩
  | none =>
    rw [recordFor_of_new h]
    refine ⟨rfl, rfl, fun m => ?_⟩
    -- a record that is not there reads as an empty one
    simp only [record, List.getD_eq_getElem?_getD]
    rcases Nat.lt_trichotomy m t.records.length with hm | rfl | hm
    · rw [List.getElem?_append_left hm]
    · simp
    · rw [List.getElem?_eq_none (by simpa using Nat.succ_le_of_lt hm),
        List.getElem?_eq_none (Nat.le_of_lt hm)]

/-- Records are added and never removed. -/
theorem length_recordFor (table : Nat) (e : ElementId) (t : Theatre τ) :
    t.records.length ≤ (t.recordFor table e).2.records.length := by
  cases h : (t.table table).get? e with
  | some r => simp [recordFor_of_known h]
  | none => simp [recordFor_of_new h]

/-- The table leads an element to the record that its players are given. -/
theorem get?_table_recordFor {table : Nat} {t : Theatre τ} (h : table < t.tables.length)
    (e e' : ElementId) :
    ((t.recordFor table e).2.table table).get? e'
      = if e' = e then some (t.recordFor table e).1 else (t.table table).get? e' := by
  cases hk : (t.table table).get? e with
  | some k =>
    rw [recordFor_of_known hk]
    split
    · next he => rw [he, hk]
    · rfl
  | none =>
    rw [recordFor_of_new hk]
    -- the table is there, so it is the one that is modified
    have htable : ∀ u : Theatre τ,
        u.tables = t.tables.modify table (·.insert e t.records.length) →
          u.table table = (t.table table).insert e t.records.length := by
      intro u hu
      simp [Theatre.table, hu, List.getD_eq_getElem?_getD, List.getElem?_eq_getElem h]
    rw [htable _ rfl, OrderedMap.get?_insert]

theorem get?_table_of_not_contains {table : Nat} {e : ElementId} {t : Theatre τ}
    (h : t.contains table e = false) : (t.table table).get? e = none := by
  rw [← Option.not_isSome_iff_eq_none, OrderedMap.get?_isSome]
  exact Bool.eq_false_iff.1 h

/-- The player that is made for keyframes, if there is anything to flip. -/
def newPlayer (table : Nat) (e : ElementId) (keyframes : List (Keyframe τ)) (t : Theatre τ) :
    Option (Player τ) :=
  if (flippingAtStart keyframes).isEmpty && (flippingAtEnd keyframes).isEmpty then none
  else some ⟨e, table, (t.recordFor table e).1, flippingAtStart keyframes,
    flippingAtEnd keyframes, .pending⟩

/-- What a new player is like. -/
theorem newPlayer_eq_some {table : Nat} {e : ElementId} {keyframes : List (Keyframe τ)}
    {t : Theatre τ} {p : Player τ} (h : t.newPlayer table e keyframes = some p) :
    p = ⟨e, table, (t.recordFor table e).1, flippingAtStart keyframes,
      flippingAtEnd keyframes, .pending⟩ := by
  unfold newPlayer at h
  split at h
  · cases h
  · exact (Option.some_inj.1 h).symm

/-- What remains the same when a player is made: all but the players, and a record that
it needs. -/
theorem addPlayer_eq (table : Nat) (e : ElementId) (keyframes : List (Keyframe τ))
    (t : Theatre τ) :
    t.addPlayer table e keyframes =
      { (if (t.newPlayer table e keyframes).isSome then (t.recordFor table e).2 else t) with
        players := t.players ++ [t.newPlayer table e keyframes] } := by
  have hplayers := (t.recordFor_keeps table e).2.1
  unfold addPlayer newPlayer
  -- without anything to flip there is no player, but its number is used up
  by_cases h : ((flippingAtStart keyframes).isEmpty && (flippingAtEnd keyframes).isEmpty) = true
  · simp [h]
  · simp [h, ← hplayers]

/-- The next number is the number of players so far. -/
theorem player?_append (t : Theatre τ) (p? : Option (Player τ)) (m : Nat) :
    player? { t with players := t.players ++ [p?] } m
      = if m = t.players.length then p? else t.player? m := by
  simp only [player?]
  rcases Nat.lt_trichotomy m t.players.length with hm | rfl | hm
  · rw [List.getElem?_append_left hm, if_neg (Nat.ne_of_lt hm)]
  · simp
  · rw [List.getElem?_eq_none (by simpa using Nat.succ_le_of_lt hm), if_neg (Nat.ne_of_gt hm),
      List.getElem?_eq_none (Nat.le_of_lt hm)]

/-- A new player has the next number; the others have theirs. -/
theorem player?_addPlayer (table : Nat) (e : ElementId) (keyframes : List (Keyframe τ))
    (t : Theatre τ) (m : Nat) :
    (t.addPlayer table e keyframes).player? m
      = if m = t.players.length then t.newPlayer table e keyframes else t.player? m := by
  rw [addPlayer_eq]
  exact player?_append t (t.newPlayer table e keyframes) m

theorem content_addPlayer (table : Nat) (e : ElementId) (keyframes : List (Keyframe τ))
    (t : Theatre τ) : (t.addPlayer table e keyframes).content = t.content := by
  have hlive := (t.recordFor_keeps table e).1
  rw [addPlayer_eq]
  funext e' property
  simp only [content]
  split
  · rw [hlive]
  · rfl

theorem record_addPlayer (table : Nat) (e : ElementId) (keyframes : List (Keyframe τ))
    (t : Theatre τ) (m : Nat) : (t.addPlayer table e keyframes).record m = t.record m := by
  rw [addPlayer_eq]
  split
  · exact (t.recordFor_keeps table e).2.2 m
  · rfl

theorem length_records_addPlayer (table : Nat) (e : ElementId) (keyframes : List (Keyframe τ))
    (t : Theatre τ) : t.records.length ≤ (t.addPlayer table e keyframes).records.length := by
  rw [addPlayer_eq]
  split
  · exact length_recordFor table e t
  · exact Nat.le_refl _

/-! ### Cues -/

/-- What can be asked of the players of one table. -/
inductive Cue (τ : Type) where
  | add (e : ElementId) (keyframes : List (Keyframe τ))
  | start (n : Nat)
  | finish (n : Nat)
  | destroy (n : Nat)
  | drop (n : Nat)

/-- Does what is asked. -/
def cue (table : Nat) (t : Theatre τ) : Cue τ → Theatre τ
  | .add e keyframes => t.addPlayer table e keyframes
  | .start n => (t.start n).1
  | .finish n => (t.finish n).1
  | .destroy n => (t.destroy n).1
  | .drop n => (t.drop n).1

/-- Does one thing after another. -/
def cueAll (table : Nat) (cues : List (Cue τ)) (t : Theatre τ) : Theatre τ :=
  cues.foldl (cue table) t

/-- What every cue of a run keeps, the run keeps. -/
theorem cueAll_induct {table : Nat} {P : Theatre τ → Prop} {cues : List (Cue τ)}
    (hcue : ∀ t, P t → ∀ c ∈ cues, P (t.cue table c)) {t : Theatre τ} (h : P t) :
    P (t.cueAll table cues) :=
  List.foldlRecOn cues (cue table) h hcue

end Theatre

end Choreography
