/-
Choreography/Proofs/Descent.lean

Where a visited node stands.

`Descent` is `Visit` together with its path: the nodes around the visited one, and the steps that
were taken before it in the sequences among them.  Every visit is made on some path
(`exists_descent_iff`).

What a scope says about its place in the tree is its `Seat`: whether it was entered from another
one, and the position among the matches of a query.  A node that is done leaves the seat as it is,
but for one thing: a query gives up the position in the scope it runs in, and so does whatever
does not put a scope of its own between itself and a query (`Animation.vacates`).  The seat of a
visited node can therefore be read off its path (`Descent.seat_eq`).
-/
import Choreography.Proofs.Stagger

namespace Choreography

variable {τ : Type}

/-! ### Nodes that matter to a seat -/

/-- Whether the nodes directly inside a node run in scopes that are entered for them. -/
def Animation.opensScope : Animation τ → Bool
  | .sequence _ options => (Walk.scoping options).isSome
  | .group .. | .animateRef .. | .query .. => true
  | _ => false

mutual

/-- Whether a node gives up the position among the matches in the scope it runs in. -/
def Animation.vacates : Animation τ → Bool
  | .sequence steps options => !(Walk.scoping options).isSome && anyVacates steps
  | .reference animation _ => animation.vacates
  | .query .. => true
  | .stagger _ animation => animation.vacates
  | _ => false

/-- Whether one of several nodes does. -/
def anyVacates : List (Animation τ) → Bool
  | [] => false
  | step :: steps => step.vacates || anyVacates steps

end

theorem anyVacates_append (xs ys : List (Animation τ)) :
    anyVacates (xs ++ ys) = (anyVacates xs || anyVacates ys) := by
  induction xs with
  | nil => rfl
  | cons x xs ih => rw [List.cons_append, anyVacates, anyVacates, ih, Bool.or_assoc]

theorem anyVacates_eq_false {steps : List (Animation τ)} :
    anyVacates steps = false ↔ ∀ step ∈ steps, step.vacates = false := by
  induction steps with
  | nil => simp [anyVacates]
  | cons step steps ih => rw [anyVacates, Bool.or_eq_false_iff, ih, List.forall_mem_cons]

/-- Only queries give up positions. -/
theorem Animation.vacates_eq_false {tree : Animation τ}
    (h : ∀ node ∈ tree.nodes, node.kind ≠ .query) : tree.vacates = false := by
  induction tree using Animation.induct with
  | sequence steps options ih =>
    have hsteps := forall_mem_nodesOf.1 (List.forall_mem_cons.1 h).2
    rw [vacates, anyVacates_eq_false.2 fun step hstep => ih step hstep (hsteps step hstep),
      Bool.and_false]
  | reference animation options ih => exact ih (List.forall_mem_cons.1 h).2
  | query selection animation options ih => exact absurd rfl (List.forall_mem_cons.1 h).1
  | stagger timing animation ih => exact ih (List.forall_mem_cons.1 h).2
  | _ => rfl

/-! ### Seats -/

/-- What a scope says about its place in the tree. -/
structure Seat where
  /-- Whether the scope was entered from another one. -/
  inner : Bool
  /-- The position among the matches of a query. -/
  index : Nat
  /-- The number of matches. -/
  total : Nat
  deriving DecidableEq

namespace Seat

/-- The seat of a scope that was possibly entered from one with this seat. -/
def enteredIf (entered : Bool) (s : Seat) : Seat := { s with inner := s.inner || entered }

/-- The seat after the position was possibly given up. -/
def vacatedIf (vacated : Bool) (s : Seat) : Seat :=
  if vacated then { s with index := 0, total := 0 } else s

@[simp] theorem enteredIf_false (s : Seat) : s.enteredIf false = s := by
  rw [enteredIf, Bool.or_false]

@[simp] theorem vacatedIf_false (s : Seat) : s.vacatedIf false = s := rfl

@[simp] theorem inner_vacatedIf (vacated : Bool) (s : Seat) :
    (s.vacatedIf vacated).inner = s.inner := by
  cases vacated <;> rfl

/-- There is nothing to give up at the first of no matches. -/
theorem vacatedIf_of_zero (inner vacated entered : Bool) :
    ((⟨inner, 0, 0⟩ : Seat).enteredIf entered).vacatedIf vacated = ⟨inner || entered, 0, 0⟩ := by
  cases vacated <;> rfl

theorem enteredIf_enteredIf (a b : Bool) (s : Seat) :
    (s.enteredIf a).enteredIf b = s.enteredIf (a || b) := by
  rw [enteredIf, enteredIf, enteredIf, Bool.or_assoc]

theorem vacatedIf_vacatedIf (a b : Bool) (s : Seat) :
    (s.vacatedIf a).vacatedIf b = s.vacatedIf (a || b) := by
  cases a <;> cases b <;> rfl

theorem enteredIf_vacatedIf (a b : Bool) (s : Seat) :
    (s.vacatedIf a).enteredIf b = (s.enteredIf b).vacatedIf a := by
  cases a <;> rfl

end Seat

namespace Walk

/-- The seat of the scope. -/
def seat (w : Walk τ) : Seat := ⟨w.scope.outer.isSome, w.scope.index, w.scope.total⟩

/-- The seat is read off the scope. -/
theorem seat_of_scope {w u : Walk τ} (h : u.scope = w.scope) : u.seat = w.seat :=
  congrArg (fun s : Scope τ => (⟨s.outer.isSome, s.index, s.total⟩ : Seat)) h

/-! ### What the steps do to a seat -/

@[simp] theorem seat_after (kind : Kind) (w : Walk τ) : (w.after kind).seat = w.seat := rfl

variable [Quantity τ] {body : Body τ} {vacates : Bool}

@[simp] theorem seat_update (keep : Bool) (options : Option (Options τ)) (w : Walk τ) :
    (w.update keep options).seat = w.seat := rfl

@[simp] theorem seat_renew (at? : Option τ) (w : Walk τ) : (w.renew at?).seat = w.seat := rfl

/-- A scope that is entered has the position of the one around. -/
@[simp] theorem seat_enter (options : Option (Options τ)) (element : ElementId) (w : Walk τ) :
    (w.enter options element).seat = w.seat.enteredIf true := by
  rw [Seat.enteredIf, Bool.or_true]
  rfl

@[simp] theorem seat_delay (time : τ) (w : Walk τ) : (w.delay time).seat = w.seat :=
  seat_of_scope (scope_delay time w)

@[simp] theorem seat_readTiming (timing : Timing τ) (allowNegative : Bool) (w : Walk τ) :
    (w.readTiming timing allowNegative).2.seat = w.seat :=
  seat_of_scope (scope_readTiming timing allowNegative w)

theorem seat_style (step : StyleStep τ) (w : Walk τ) : (w.style step).seat = w.seat := by
  have hframe : ∀ b : Bool, (if b then w.edit (Scene.onTimeline Timeline.forwardFrame)
      else w).seat = w.seat := fun b => by cases b <;> rfl
  unfold style
  rw [seat_after, ← hframe (w.scope.timings.isNone && w.timeline.hasCurrentStyles)]
  split <;> rfl

/-- Keyframes keep the seat. -/
theorem seat_keyframes (steps : List (StyleStep τ)) (w : Walk τ) :
    (w.keyframes steps).seat = w.seat := by
  cases ht : w.scope.timings with
  | none =>
    simp only [keyframes, ht]
    rfl
  | some timings =>
    -- their scope has been left again
    rw [keyframes_eq ht]
    rfl

/-- So do animated steps. -/
theorem seat_animate (timing : Timing τ) (target : Target τ) (w : Walk τ) :
    (w.animate timing target).seat = w.seat := by
  have hopen : ∀ (timings : Timings τ) (w : Walk τ), (w.openAnimate timings).seat = w.seat := by
    intro timings w
    unfold openAnimate
    dsimp only
    split <;> rfl
  have hmove : ∀ (duration : τ) (w : Walk τ), (w.moveTo duration target).seat = w.seat := by
    intro duration w
    cases target with
    | style step => exact seat_style step (w.advance duration)
    | keyframes steps => exact seat_keyframes steps w
  show ((((w.readTiming timing false).2.openAnimate _).moveTo _ target)).seat = _
  rw [hmove, hopen, seat_readTiming]

/-- The flush at the end of steps, and the new timeline, keep the seat. -/
theorem seat_steps (forks : Nat) (bodies : List (Body τ)) (w : Walk τ) :
    (w.steps forks bodies).seat = (w.follow bodies).seat := by
  unfold steps
  split
  · next h => rw [List.isEmpty_iff.1 h, follow, List.foldl_nil]
  · dsimp only
    split <;> rfl

theorem seat_openSequence (options : Option (Options τ)) (w : Walk τ) :
    (w.openSequence options).seat = w.seat.enteredIf (scoping options).isSome := by
  unfold openSequence
  cases scoping options with
  | none => exact (Seat.enteredIf_false _).symm
  | some o => rw [seat_delay, seat_renew, seat_enter]; rfl

/-- Branches run in scopes of their own. -/
theorem seat_branches (options : Option (Options τ)) (bodies : List (Body τ)) (furthest : τ)
    (w : Walk τ) : (branches options bodies furthest w).1.seat = w.seat := by
  induction bodies generalizing furthest w with
  | nil => rfl
  | cons body bodies ih => exact ih _ (w.branch options body furthest).1

theorem seat_referenceDelay (options : Option (Options τ)) (w : Walk τ) :
    (w.referenceDelay options).seat = w.seat := by
  unfold referenceDelay
  split
  · rfl
  · split
    · rfl
    · exact seat_delay _ _

theorem seat_openUse (defaults options : Option (Options τ)) (w : Walk τ) :
    (w.openUse defaults options).seat = w.seat.enteredIf true := by
  rw [openUse, seat_referenceDelay, seat_referenceDelay, seat_renew, seat_enter]

/-- Delegated animations are placed in a scope of their own. -/
theorem seat_animateChild (setting : Setting τ) (options : Option (Options τ)) (w : Walk τ) :
    (w.animateChild setting options).seat = w.seat := by
  unfold animateChild
  rw [seat_after]
  split
  · dsimp only
    split <;> rfl
  · rfl

/-- A match has the position it is given. -/
theorem seat_openMatch (options : Option (Options τ)) (element : ElementId) (index : Nat)
    (w : Walk τ) : (w.openMatch options element index).seat = ⟨true, index, w.scope.total⟩ := by
  rw [openMatch, seat_delay, seat_enter, Seat.enteredIf, Bool.or_true]
  rfl

/-- A query gives up the position, whatever its matches did. -/
theorem seat_query (setting : Setting τ) (body : Body τ) (q : Selection)
    (options : Option (Options τ)) (w : Walk τ) :
    (w.query setting body q options).seat = w.seat.vacatedIf true := by
  have hclose : ∀ (furthest : τ) (self : Option TimelineId) (u : Walk τ),
      (u.closeQuery furthest self).seat = u.seat.vacatedIf true := by
    intro furthest self u
    unfold closeQuery
    cases self <;> rfl
  -- nothing that opens a query changes from where the scope was entered
  have hopen : (w.openQuery q (setting.select w.scope.element q) options).scope.outer
      = w.scope.outer := by
    unfold openQuery holdStyles
    split <;> dsimp only <;> split <;> rfl
  obtain ⟨forks, staggerTime, hscope⟩ := scope_matchesFrom options body
    (setting.select w.scope.element q) 0 w.currentTime none
    (w.openQuery q (setting.select w.scope.element q) options)
  show (Walk.closeQuery _ _ _).seat = _
  rw [hclose, seat, hscope]
  exact congrArg (fun outer : Option (Surroundings τ) => (⟨outer.isSome, 0, 0⟩ : Seat)) hopen

theorem seat_atStagger (timing : Timing τ) (w : Walk τ) : (w.atStagger timing).seat = w.seat :=
  seat_of_scope (scope_atStagger timing w)

/-- A stagger does to the seat what its animation does. -/
theorem seat_stagger (hb : ∀ w, (body w).seat = w.seat.vacatedIf vacates) (timing : Timing τ)
    (w : Walk τ) : (w.stagger body timing).seat = w.seat.vacatedIf vacates := by
  have hbody : (body (w.atStagger timing)).seat = w.seat.vacatedIf vacates := by
    rw [hb, seat_atStagger]
  unfold stagger
  unfold atStagger at hbody
  cases houter : w.scope.outer with
  | none =>
    rw [houter] at hbody
    exact hbody
  | some outer =>
    rw [houter] at hbody
    -- the time is recorded for the scope around, which is there before and after
    have hinner : (body (w.openStagger timing outer)).scope.outer.isSome = true := by
      have h := congrArg Seat.inner hbody
      rw [Seat.inner_vacatedIf] at h
      exact h.trans (congrArg Option.isSome houter)
    rw [← hbody]
    exact congrArg (fun inner => (⟨inner, _, _⟩ : Seat)) hinner.symm

/-! ### Trees -/

/-- Steps give up the position if one of them does. -/
theorem seat_follow {setting : Setting τ} {steps : List (Animation τ)}
    (h : ∀ step ∈ steps, ∀ w, (step.body setting w).seat = w.seat.vacatedIf step.vacates)
    (w : Walk τ) :
    (w.follow (bodies setting steps)).seat = w.seat.vacatedIf (anyVacates steps) := by
  induction steps generalizing w with
  | nil => rfl
  | cons step steps ih =>
    rw [List.forall_mem_cons] at h
    show ((step.body setting w).follow (bodies setting steps)).seat = _
    rw [ih h.2, h.1, Seat.vacatedIf_vacatedIf, anyVacates]

/-- What a tree does to the seat. -/
theorem seat_body (setting : Setting τ) (tree : Animation τ) (w : Walk τ) :
    (tree.body setting w).seat = w.seat.vacatedIf tree.vacates := by
  induction tree using Animation.induct generalizing w with
  | trigger | state | transition => rfl
  | sequence steps options ih =>
    show (w.sequence (bodies setting steps) options).seat = _
    unfold sequence
    rw [seat_after, Animation.vacates]
    cases hscoping : scoping options with
    | none =>
      have hopen : w.openSequence options = w := by
        unfold openSequence
        rw [hscoping]
      show ((w.openSequence options).steps w.scope.forks (bodies setting steps)).seat = _
      rw [hopen, seat_steps, seat_follow ih]
      rfl
    -- a scope of its own: whatever the steps did to the position is left behind
    | some o => rfl
  | group steps options ih => exact seat_branches options (bodies setting steps) w.currentTime w
  | animate timing target => exact seat_animate timing target w
  | keyframes steps => exact seat_keyframes steps w
  | style step => exact seat_style step w
  | reference animation options ih => exact ih (w.update true options)
  | animateChild options => exact seat_animateChild setting options w
  | animateRef animation defaults options ih => rfl
  | query selection animation options ih => exact seat_query setting _ selection options w
  | stagger timing animation ih => exact seat_stagger ih timing w

/-- A branch is entered with the position of the group. -/
theorem seat_atBranch (options : Option (Options τ)) (bodies : List (Body τ)) (w : Walk τ) :
    (w.atBranch options bodies).seat = w.seat.enteredIf true := by
  rw [atBranch, openBranch, seat_delay, seat_enter, seat_branches]

/-- The seat in which a step of a sequence is taken. -/
theorem seat_atStep (setting : Setting τ) (options : Option (Options τ))
    (done : List (Animation τ)) (w : Walk τ) :
    ((w.openSequence options).follow (bodies setting done)).seat
      = (w.seat.enteredIf (scoping options).isSome).vacatedIf (anyVacates done) := by
  rw [seat_follow fun step _ => seat_body setting step, seat_openSequence]

end Walk

/-! ### Descents -/

variable [Quantity τ]

open Walk in
/-- A visit on a path: below some nodes, the outermost first, and after the steps that were taken
before it in the sequences among them. -/
inductive Descent (setting : Setting τ) : Animation τ → Walk τ → List (Animation τ) →
    List (Animation τ) → Animation τ → Walk τ → Prop
  | here (tree : Animation τ) (w : Walk τ) : Descent setting tree w [] [] tree w
  | step (pre : List (Animation τ)) {post : List (Animation τ)} {step : Animation τ}
      {options : Option (Options τ)} {w : Walk τ} {above before : List (Animation τ)}
      {node : Animation τ} {v : Walk τ} :
      Descent setting step ((w.openSequence options).follow (bodies setting pre)) above before
        node v →
        Descent setting (.sequence (pre ++ step :: post) options) w
          (.sequence (pre ++ step :: post) options :: above) (pre ++ before) node v
  | branch (pre : List (Animation τ)) {post : List (Animation τ)} {step : Animation τ}
      {options : Option (Options τ)} {w : Walk τ} {above before : List (Animation τ)}
      {node : Animation τ} {v : Walk τ} :
      Descent setting step (w.atBranch options (bodies setting pre)) above before node v →
        Descent setting (.group (pre ++ step :: post) options) w
          (.group (pre ++ step :: post) options :: above) before node v
  | reference {animation : Animation τ} {options : Option (Options τ)} {w : Walk τ}
      {above before : List (Animation τ)} {node : Animation τ} {v : Walk τ} :
      Descent setting animation (w.update true options) above before node v →
        Descent setting (.reference animation options) w (.reference animation options :: above)
          before node v
  | use {animation : Animation τ} {defaults options : Option (Options τ)} {w : Walk τ}
      {above before : List (Animation τ)} {node : Animation τ} {v : Walk τ} :
      Descent setting animation ((w.openUse defaults options).update true defaults) above before
        node v →
        Descent setting (.animateRef animation defaults options) w
          (.animateRef animation defaults options :: above) before node v
  | match {q : Selection} {animation : Animation τ} {options : Option (Options τ)} {w : Walk τ}
      {pre post : List ElementId} {element : ElementId} {above before : List (Animation τ)}
      {node : Animation τ} {v : Walk τ}
      (selected : setting.select w.scope.element q = pre ++ element :: post) :
      Descent setting animation ((w.beforeMatch setting (animation.body setting) q options
        pre).openMatch options element pre.length) above before node v →
        Descent setting (.query q animation options) w (.query q animation options :: above)
          before node v
  | stagger {timing : Timing τ} {animation : Animation τ} {w : Walk τ}
      {above before : List (Animation τ)} {node : Animation τ} {v : Walk τ} :
      Descent setting animation (w.atStagger timing) above before node v →
        Descent setting (.stagger timing animation) w (.stagger timing animation :: above) before
          node v

/-- What holds of all nodes of a tree holds of all nodes of a visited one. -/
theorem Visit.forall_mem_nodes {setting : Setting τ} {tree node : Animation τ} {w v : Walk τ}
    {P : Animation τ → Prop} (h : Visit setting tree w node v) (htree : ∀ n ∈ tree.nodes, P n) :
    ∀ n ∈ node.nodes, P n := by
  induction h with
  | here tree w => exact htree
  | step _ ih =>
    exact ih (forall_mem_nodesOf.1 (List.forall_mem_cons.1 htree).2 _ (by simp))
  | branch _ ih =>
    exact ih (forall_mem_nodesOf.1 (List.forall_mem_cons.1 htree).2 _ (by simp))
  | reference _ ih => exact ih (List.forall_mem_cons.1 htree).2
  | use _ ih => exact ih (List.forall_mem_cons.1 htree).2
  | «match» _ _ ih => exact ih (List.forall_mem_cons.1 htree).2
  | stagger _ ih => exact ih (List.forall_mem_cons.1 htree).2

namespace Descent

variable {setting : Setting τ} {tree node : Animation τ} {w v : Walk τ}
  {above before : List (Animation τ)}

theorem visit (h : Descent setting tree w above before node v) : Visit setting tree w node v := by
  induction h with
  | here tree w => exact .here tree w
  | step _ _ ih => exact .step ih
  | branch _ _ ih => exact .branch ih
  | reference _ ih => exact .reference ih
  | use _ ih => exact .use ih
  | «match» selected _ ih => exact .match selected ih
  | stagger _ ih => exact .stagger ih

/-- A scope was entered from another one if the outermost one was or a node on the path has
opened one. -/
theorem seat_inner (h : Descent setting tree w above before node v) :
    v.seat.inner = (w.seat.inner || above.any Animation.opensScope) := by
  -- the first induction is on the path, node by node
  have hentered : ∀ (s : Seat) (entered : Bool), (s.enteredIf entered).inner
      = (s.inner || entered) := fun _ _ => rfl
  induction h with
  | here tree w => rw [List.any_nil, Bool.or_false]
  | step _ _ ih =>
    rw [ih, Walk.seat_atStep, Seat.inner_vacatedIf, hentered, List.any_cons, Bool.or_assoc]
    rfl
  | branch _ _ ih =>
    rw [ih, Walk.seat_atBranch, hentered, List.any_cons, Bool.or_assoc]
    rfl
  | reference _ ih => exact ih
  | use _ ih =>
    rw [ih, Walk.seat_update, Walk.seat_openUse, hentered, List.any_cons, Bool.or_assoc]
    rfl
  | «match» _ _ ih =>
    rw [ih, Walk.seat_openMatch, List.any_cons]
    exact (Bool.or_true _).symm
  | stagger _ ih => rw [ih, Walk.seat_atStagger]; rfl

/-- Up to the next query the position is the one that the tree is compiled in, unless a step
before has given it up. -/
theorem seat_eq (h : Descent setting tree w above before node v)
    (hq : ∀ a ∈ above, a.kind ≠ .query) :
    v.seat = (w.seat.enteredIf (above.any Animation.opensScope)).vacatedIf
      (anyVacates before) := by
  induction h with
  | here tree w => rw [List.any_nil, Seat.enteredIf_false]; rfl
  -- in a sequence the steps before may have given up the position,
  | step _ _ ih =>
    rw [ih (List.forall_mem_cons.1 hq).2, Walk.seat_atStep, Seat.enteredIf_vacatedIf,
      Seat.enteredIf_enteredIf, Seat.vacatedIf_vacatedIf, anyVacates_append]
    rfl
  -- in a group they ran in scopes of their own
  | branch _ _ ih =>
    rw [ih (List.forall_mem_cons.1 hq).2, Walk.seat_atBranch, Seat.enteredIf_enteredIf]
    rfl
  | reference _ ih => exact ih (List.forall_mem_cons.1 hq).2
  | use _ ih =>
    rw [ih (List.forall_mem_cons.1 hq).2, Walk.seat_update, Walk.seat_openUse,
      Seat.enteredIf_enteredIf]
    rfl
  | «match» _ _ ih => exact absurd rfl (List.forall_mem_cons.1 hq).1
  | stagger _ ih =>
    rw [ih (List.forall_mem_cons.1 hq).2, Walk.seat_atStagger]
    rfl

end Descent

/-- Whatever is visited is visited on a path. -/
theorem exists_descent_iff {setting : Setting τ} {tree node : Animation τ} {w v : Walk τ} :
    (∃ above before, Descent setting tree w above before node v) ↔
      Visit setting tree w node v := by
  refine ⟨fun ⟨_, _, h⟩ => h.visit, fun h => ?_⟩
  induction h with
  | here tree w => exact ⟨_, _, .here tree w⟩
  | step _ ih => obtain ⟨above, before, h⟩ := ih; exact ⟨_, _, .step _ h⟩
  | branch _ ih => obtain ⟨above, before, h⟩ := ih; exact ⟨_, _, .branch _ h⟩
  | reference _ ih => obtain ⟨above, before, h⟩ := ih; exact ⟨_, _, .reference h⟩
  | use _ ih => obtain ⟨above, before, h⟩ := ih; exact ⟨_, _, .use h⟩
  | «match» selected _ ih => obtain ⟨above, before, h⟩ := ih; exact ⟨_, _, .match selected h⟩
  | stagger _ ih => obtain ⟨above, before, h⟩ := ih; exact ⟨_, _, .stagger h⟩

end Choreography
