/-
Choreography/Proofs/Stagger.lean

When the matches under a stagger begin.

A match gets a timeline of its own, on which nothing happens before the delay of the query
and that of the stagger; both only move its start (`Walk.Begins`).  Since the matches do not
move the clock of the query, each begins at the clock of the query plus the two delays
(`Walk.begins_atMatch`).

The delay of a stagger that is not chained depends on the position of the match alone, so the
matches are spread evenly, and a step with the opposite sign turns their order around
(`starts_spread`).

The delay of a chained stagger is the time that the match before has recorded.  What it
records is counted from the start of the timeline around the query, while the next match
counts from the clock of that timeline and waits for the delay of the query again
(`chained_iff`).  So the chain has no gaps only if these make up for what the animation
did in other timelines than its own.
-/
import Choreography.Animation.Build
import Choreography.Proofs.Progress.Nodes
import Choreography.Proofs.Run

namespace Choreography

namespace Walk

theorem Begins.currentTime_eq {w : Walk ℚ} {start : ℚ} (h : w.Begins start) :
    w.currentTime = start := by
  obtain ⟨lineage, element, own, hnew⟩ := h.new
  rw [currentTime, hnew]
  exact add_zero start

/-- A delay moves the start of a new timeline, if it is positive. -/
theorem Begins.delay_max {w : Walk ℚ} {start : ℚ} (h : w.Begins start) (time : ℚ) :
    (w.delay time).Begins (start + max 0 time) := by
  have hdelay := h.delay (beq_self_eq_true 0) time
  split at hdelay
  · next hpos => rwa [max_eq_right (le_of_lt hpos)]
  · next hpos => rwa [max_eq_left (not_lt.1 hpos), add_zero]

/-! ### Scopes of matches -/

section Scopes

variable {τ : Type} [Quantity τ]

/-- The timings of a stagger, as every match of a query reads them. -/
def staggerTimings (timing : Timing τ) (options : Option (Options τ)) (w : Walk τ) : Timings τ :=
  ((w.enter options w.scope.element).readTiming timing true).1

theorem readTiming_openMatch {w u : Walk τ} (h : u.scope.options = w.scope.options)
    (timing : Timing τ) (options : Option (Options τ)) (element : ElementId) (index : Nat) :
    ((u.openMatch options element index).readTiming timing true).1
      = w.staggerTimings timing options := by
  refine readTiming_congr ?_ timing true
  rw [openMatch, scope_delay]
  show (Overrides.update false options _).1.params = (Overrides.update false options _).1.params
  -- the timing is a matter of the parameters, and these of the options of the match and the query
  rw [h]

theorem position_openMatch (options : Option (Options τ)) (element : ElementId) (index : Nat)
    (w : Walk τ) : (w.openMatch options element index).scope.index = index
      ∧ (w.openMatch options element index).scope.total = w.scope.total := by
  rw [openMatch, scope_delay]
  exact ⟨rfl, rfl⟩

/-- What a match knows of the query around it. -/
theorem outer_openMatch {w : Walk τ} (h : w.scope.timeline < w.score.timelines.length)
    (options : Option (Options τ)) (element : ElementId) (index : Nat) :
    (w.openMatch options element index).scope.outer
      = some ⟨w.scope.staggerTime, w.timeline.start⟩ := by
  rw [openMatch, scope_delay]
  show some (Surroundings.mk w.scope.staggerTime
    ((w.score.fork w.scope.timeline element none).2.timeline w.scope.timeline).start) = _
  -- the flush of the query's keyframe does not move its start
  rw [Score.timeline_fork_of_lt _ _ _ h, Score.timeline_edit_self _ h]
  exact congrArg (fun start => some (Surroundings.mk w.scope.staggerTime start))
    (congrArg Skeleton.start (Scene.skeleton_flush (w.score.scene w.scope.timeline)))

/-- Of the scope of a query its matches only count the scopes that were entered, and the time
that was recorded. -/
theorem scope_matchesFrom (options : Option (Options τ)) (body : Body τ)
    (elements : List ElementId) (index : Nat) (furthest : τ) (self : Option TimelineId)
    (w : Walk τ) :
    ∃ forks staggerTime, (matchesFrom options body elements index furthest self w).1.scope
      = { w.scope with forks := forks, staggerTime := staggerTime } := by
  -- on the matches: each of them leaves the scope as it was but for these two
  induction elements generalizing index furthest self w with
  | nil => exact ⟨_, _, rfl⟩
  | cons element elements ih =>
    obtain ⟨forks, staggerTime, h⟩ := ih (index + 1)
      (w.matched options body element index furthest).2.1
      (if element = w.scope.element then
        some (w.matched options body element index furthest).2.2 else self)
      (w.matched options body element index furthest).1
    exact ⟨forks, staggerTime, h⟩

theorem scope_openQuery (q : Selection) (elements : List ElementId)
    (options : Option (Options τ)) (w : Walk τ) :
    (w.openQuery q elements options).scope.options = w.scope.options
      ∧ (w.openQuery q elements options).scope.total = elements.length
      ∧ (w.openQuery q elements options).scope.staggerTime = 0 := by
  have hhold : (w.holdStyles (delayOf options)).scope.options = w.scope.options := by
    unfold holdStyles
    split <;> rfl
  unfold openQuery
  dsimp only
  split
  · exact ⟨hhold, rfl, rfl⟩
  · exact ⟨hhold, rfl, rfl⟩

theorem scope_beforeMatch (setting : Setting τ) (body : Body τ) (q : Selection)
    (options : Option (Options τ)) (done : List ElementId) (w : Walk τ) :
    (w.beforeMatch setting body q options done).scope.options = w.scope.options
      ∧ (w.beforeMatch setting body q options done).scope.total
        = (setting.select w.scope.element q).length := by
  obtain ⟨hoptions, htotal, -⟩ := scope_openQuery q (setting.select w.scope.element q) options w
  obtain ⟨forks, staggerTime, hscope⟩ := scope_matchesFrom options body done 0 w.currentTime none
    (w.openQuery q (setting.select w.scope.element q) options)
  rw [beforeMatch, hscope]
  exact ⟨hoptions, htotal⟩

theorem beforeMatch_concat (setting : Setting τ) (body : Body τ) (q : Selection)
    (options : Option (Options τ)) (done : List ElementId) (element : ElementId) (w : Walk τ) :
    ∃ furthest, w.beforeMatch setting body q options (done ++ [element])
      = ((w.beforeMatch setting body q options done).matched options body element done.length
          furthest).1 := by
  refine ⟨(matchesFrom options body done 0 w.currentTime none
    (w.openQuery q (setting.select w.scope.element q) options)).2.1, ?_⟩
  unfold beforeMatch
  rw [matchesFrom_append, Nat.zero_add]
  rfl

/-- Where there is a scope around, the animation of a stagger is delayed by the position. -/
theorem atStagger_of_some {w : Walk τ} {outer : Surroundings τ} (h : w.scope.outer = some outer)
    (timing : Timing τ) :
    w.atStagger timing = (w.readTiming timing true).2.delay (staggerDelay
      (w.readTiming timing true).1 w.scope.index w.scope.total outer.staggerTime) := by
  unfold atStagger
  rw [h]
  show (w.readTiming timing true).2.delay (staggerDelay (w.readTiming timing true).1
    (w.readTiming timing true).2.scope.index (w.readTiming timing true).2.scope.total _) = _
  rw [scope_readTiming]

theorem atStagger_of_none {w : Walk τ} (h : w.scope.outer = none) (timing : Timing τ) :
    w.atStagger timing = w.report [.staggerOutsideQuery] := by
  unfold atStagger
  rw [h]

theorem scope_atStagger (timing : Timing τ) (w : Walk τ) :
    (w.atStagger timing).scope = w.scope := by
  cases h : w.scope.outer with
  | none =>
    rw [atStagger_of_none h]
    rfl
  | some outer => rw [atStagger_of_some h, scope_delay, scope_readTiming]

end Scopes

/-! ### The matches of a query -/

section Matches

variable {body : Body ℚ} {w : Walk ℚ}

/-- The matches that are done have left the clock of the query where it was. -/
theorem skeleton_beforeMatch (setting : Setting ℚ) (hb : ∀ w, Effect w (body w)) (hv : w.Valid)
    (q : Selection) (options : Option (Options ℚ)) (done : List ElementId) :
    (w.beforeMatch setting body q options done).timeline.skeleton = w.timeline.skeleton := by
  have hopen := Effect.compositional.openQuery q (setting.select w.scope.element q) options w
  exact (spared_matchesFrom hb options done 0 w.currentTime none (hopen.valid hv)).skeleton.trans
    (skeleton_openQuery q _ options w)

theorem valid_beforeMatch (setting : Setting ℚ) (hb : ∀ w, Effect w (body w)) (hv : w.Valid)
    (q : Selection) (options : Option (Options ℚ)) (done : List ElementId) :
    (w.beforeMatch setting body q options done).Valid :=
  ((Effect.compositional.openQuery q _ options w).trans
    (Effect.compositional.matchesFrom hb options done _ _ _ _)).valid hv

/-- The walk in which a stagger runs its animation for a match, when some are done. -/
def atMatch (setting : Setting ℚ) (timing : Timing ℚ) (animation : Animation ℚ) (q : Selection)
    (options : Option (Options ℚ)) (done : List ElementId) (element : ElementId) (w : Walk ℚ) :
    Walk ℚ :=
  ((w.beforeMatch setting ((Animation.stagger timing animation).body setting) q options
    done).openMatch options element done.length).atStagger timing

/-- A match under a stagger begins at the clock of the query, after the delay of the query
and that of the stagger. -/
theorem begins_atMatch (setting : Setting ℚ) (timing : Timing ℚ) (animation : Animation ℚ)
    (q : Selection) (options : Option (Options ℚ)) (done : List ElementId) (element : ElementId)
    (hv : w.Valid) :
    (w.atMatch setting timing animation q options done element).Begins
      (w.currentTime + max 0 (delayOf options) + max 0 (staggerDelay
        (w.staggerTimings timing options) done.length (setting.select w.scope.element q).length
        (w.beforeMatch setting ((Animation.stagger timing animation).body setting) q options
          done).scope.staggerTime)) := by
  have hb := (Animation.stagger timing animation).effect setting
  let u := w.beforeMatch setting ((Animation.stagger timing animation).body setting) q options done
  let m := u.openMatch options element done.length
  obtain ⟨hoptions, htotal⟩ : u.scope.options = w.scope.options ∧ u.scope.total = _ :=
    scope_beforeMatch setting _ q options done w
  have hnow : u.currentTime = w.currentTime :=
    Timeline.currentTime_eq_of_skeleton_eq (skeleton_beforeMatch setting hb hv q options done)
  have hopen : m.Begins (w.currentTime + max 0 (delayOf options)) := by
    rw [← hnow]
    exact (begins_enter options element { u with scope := { u.scope with
      index := done.length } }).delay_max (delayOf options)
  -- the query is still on its timeline, so the match knows the start of that
  have houter : m.scope.outer = some ⟨u.scope.staggerTime, u.timeline.start⟩ :=
    outer_openMatch (valid_beforeMatch setting hb hv q options done).timeline options element
      done.length
  obtain ⟨hindex, hplaces⟩ : m.scope.index = done.length ∧ m.scope.total = u.scope.total :=
    position_openMatch options element done.length u
  rw [htotal] at hplaces
  -- reading the timings has no effect on the timeline
  have hread : (m.readTiming timing true).2.Begins _ :=
    hopen.of_eq (score_readTiming timing true m) (by rw [scope_readTiming])
  have hdelayed := hread.delay_max (staggerDelay (w.staggerTimings timing options) done.length
    (setting.select w.scope.element q).length u.scope.staggerTime)
  show (m.atStagger timing).Begins _
  rw [atStagger_of_some houter, hindex, hplaces, readTiming_openMatch hoptions]
  exact hdelayed

/-- What a match under a stagger records for the next one. -/
theorem staggerTime_matched (hv : w.Valid) (options : Option (Options ℚ)) (timing : Timing ℚ)
    (body : Body ℚ) (element : ElementId) (index : Nat) (furthest : ℚ) :
    let here := (w.openMatch options element index).atStagger timing
    let own := (body here).score.timeline here.scope.timeline
    (w.matched options (stagger body timing) element index furthest).1.scope.staggerTime
      = own.currentTime - here.currentTime + (own.start - w.timeline.start) := by
  intro here own
  let m := w.openMatch options element index
  have houter : m.scope.outer = some ⟨w.scope.staggerTime, w.timeline.start⟩ :=
    outer_openMatch hv.timeline options element index
  -- the match knows a scope around, so its stagger is no mistake
  have hhere : here = m.openStagger timing ⟨w.scope.staggerTime, w.timeline.start⟩ := by
    show m.atStagger timing = _
    unfold atStagger
    rw [houter]
  have hline : here.scope.timeline = m.scope.timeline := by
    show (m.atStagger timing).scope.timeline = _
    rw [scope_atStagger]
  -- the time is recorded in the surroundings, from which the query takes it back
  have hinner : (m.stagger body timing).scope.outer
      = some ⟨own.currentTime - here.currentTime + (own.start - w.timeline.start),
        w.timeline.start⟩ := by
    unfold stagger
    rw [houter]
    show some (Surroundings.mk _ _) = _
    rw [← hhere]
    show some (Surroundings.mk (((body here).score.timeline m.scope.timeline).currentTime
      - here.currentTime + (((body here).score.timeline m.scope.timeline).start
        - w.timeline.start)) w.timeline.start) = _
    rw [← hline]
  show (m.stagger body timing).scope.outer.elim w.scope.staggerTime Surroundings.staggerTime = _
  rw [hinner]
  rfl

/-- What is recorded when one more match is done, in terms of the walk in which its animation
ran. -/
theorem staggerTime_beforeMatch (setting : Setting ℚ) (timing : Timing ℚ)
    (animation : Animation ℚ) (q : Selection) (options : Option (Options ℚ))
    (done : List ElementId) (element : ElementId) (hv : w.Valid) :
    let here := w.atMatch setting timing animation q options done element
    let own := (animation.body setting here).score.timeline here.scope.timeline
    (w.beforeMatch setting ((Animation.stagger timing animation).body setting) q options
        (done ++ [element])).scope.staggerTime
      = own.currentTime - here.currentTime + (own.start - w.timeline.start) := by
  intro here own
  have hb := (Animation.stagger timing animation).effect setting
  obtain ⟨furthest, hnext⟩ := beforeMatch_concat setting
    ((Animation.stagger timing animation).body setting) q options done element w
  -- the matches before have left the start of the query's timeline as it was
  have hstart : (w.beforeMatch setting ((Animation.stagger timing animation).body setting) q
      options done).timeline.start = w.timeline.start :=
    congrArg Skeleton.start (skeleton_beforeMatch setting hb hv q options done)
  have hrecorded := staggerTime_matched (valid_beforeMatch setting hb hv q options done) options
    timing (animation.body setting) element done.length furthest
  rw [hnext, ← hstart]
  exact hrecorded

/-- The time by which a step spreads the match at a position: counted from the first match, or
from the last one if the step is negative. -/
def spread (step : ℚ) (total index : Nat) : ℚ :=
  if 0 ≤ step then index * step else ((total : ℚ) - 1 - index) * |step|

/-- The match at a position waits as the one at the position from the other end does for the
opposite step. -/
theorem spread_neg (step : ℚ) {total index : Nat} (h : index < total) :
    spread (-step) total index = spread step total (total - 1 - index) := by
  have hother : ((total - 1 - index : Nat) : ℚ) = (total : ℚ) - 1 - index := by
    rw [Nat.sub_sub, Nat.cast_sub (by omega), Nat.cast_add, Nat.cast_one]
    ring
  unfold spread
  rw [hother, abs_neg]
  rcases lt_trichotomy step 0 with hneg | rfl | hpos
  · rw [if_pos (by linarith), if_neg (not_le.2 hneg), abs_of_neg hneg]
    ring
  · simp
  · rw [if_neg (by linarith), if_pos hpos.le, abs_of_pos hpos]

/-- Without a chain the delay is that of the position. -/
theorem staggerDelay_of_unchained {timings : Timings ℚ} (h : timings.easing ≠ some chainedEasing)
    {index total : Nat} (hindex : index < total) (chained : ℚ) :
    max 0 (staggerDelay timings index total chained) = spread timings.duration total index := by
  have hplaces : (index : ℚ) + 1 ≤ total := by exact_mod_cast hindex
  unfold staggerDelay spread
  -- a negative step counts from the last match, by its size
  by_cases hstep : timings.duration < 0
  · have hsize : Quantity.magnitude timings.duration = |timings.duration| := by
      rw [Quantity.magnitude, if_pos hstep, abs_of_neg hstep, zero_sub]
    rw [if_pos hstep, if_neg (not_le.2 hstep), hsize, ← mul_sub, mul_comm]
    exact max_eq_right (mul_nonneg (by linarith) (abs_nonneg _))
  · rw [if_neg hstep, if_neg h, if_pos (not_lt.1 hstep), Quantity.magnitude, if_neg hstep, mul_comm]
    exact max_eq_right (mul_nonneg (Nat.cast_nonneg _) (not_lt.1 hstep))

/-- When the matches of a query under a stagger begin, in their order. -/
def starts (setting : Setting ℚ) (timing : Timing ℚ) (animation : Animation ℚ) (q : Selection)
    (options : Option (Options ℚ)) (w : Walk ℚ) : List ℚ :=
  let elements := setting.select w.scope.element q
  .ofFn fun i : Fin elements.length =>
    (w.atMatch setting timing animation q options (elements.take i) elements[i]).timeline.start

/-- Without a chain matches begin at their positions in the spread. -/
theorem start_atMatch_of_unchained {setting : Setting ℚ} {timing : Timing ℚ} {q : Selection}
    {options : Option (Options ℚ)} (hv : w.Valid)
    (h : (w.staggerTimings timing options).easing ≠ some chainedEasing) (animation : Animation ℚ)
    {pre post : List ElementId} {element : ElementId}
    (selected : setting.select w.scope.element q = pre ++ element :: post) :
    (w.atMatch setting timing animation q options pre element).timeline.start
      = w.currentTime + max 0 (delayOf options) + spread (w.staggerTimings timing options).duration
          (setting.select w.scope.element q).length pre.length := by
  have hindex : pre.length < (setting.select w.scope.element q).length := by
    simp [selected]
  rw [(begins_atMatch setting timing animation q options pre element hv).start_eq,
    staggerDelay_of_unchained h hindex]

theorem starts_of_unchained {setting : Setting ℚ} {timing : Timing ℚ} {q : Selection}
    {options : Option (Options ℚ)} (hv : w.Valid)
    (h : (w.staggerTimings timing options).easing ≠ some chainedEasing)
    (animation : Animation ℚ) :
    w.starts setting timing animation q options
      = .ofFn fun i : Fin (setting.select w.scope.element q).length =>
          w.currentTime + max 0 (delayOf options)
            + spread (w.staggerTimings timing options).duration
                (setting.select w.scope.element q).length i := by
  refine congrArg List.ofFn (funext fun i => ?_)
  -- the matches before the one at a position are the first ones of all
  have selected := (List.take_append_drop i (setting.select w.scope.element q)).symm
  rw [List.drop_eq_getElem_cons i.isLt] at selected
  refine (start_atMatch_of_unchained hv h animation selected).trans ?_
  rw [List.length_take_of_le i.isLt.le]

/-- In a chain the delay is what has been recorded. -/
theorem staggerDelay_of_chained {timings : Timings ℚ} (hstep : 0 ≤ timings.duration)
    (hfull : timings.easing = some chainedEasing) (index total : Nat) (chained : ℚ) :
    staggerDelay timings index total chained = chained := by
  simp [staggerDelay, not_lt.2 hstep, hfull]

end Matches

end Walk

/-! ### Spreads -/

/-- The stagger runs its animation in the walks at its matches. -/
theorem visit_atMatch {setting : Setting ℚ} {timing : Timing ℚ} {animation : Animation ℚ}
    {q : Selection} {options : Option (Options ℚ)} {w : Walk ℚ} {pre post : List ElementId}
    {element : ElementId} (h : setting.select w.scope.element q = pre ++ element :: post) :
    Visit setting (.query q (.stagger timing animation) options) w animation
      (w.atMatch setting timing animation q options pre element) :=
  .match h (.stagger (.here _ _))

/-- **When spread matches begin**: at the clock of the query after its delay and a multiple of the
step, which grows with the position, or falls if the step is negative.  The opposite step turns
the order of the starts around. -/
theorem starts_spread {host : Host} {root : ElementId} {tree : Animation ℚ} {setup : Setup ℚ}
    {delegated : InstructionMap ℚ} {sink : List Diagnostic} {q : Selection} {timing : Timing ℚ}
    {animation : Animation ℚ} {options : Option (Options ℚ)} {w : Walk ℚ}
    (h : Visit (setup.setting host delegated) tree (.start root setup sink)
      (.query q (.stagger timing animation) options) w)
    (hspread : (w.staggerTimings timing options).easing ≠ some Walk.chainedEasing) :
    let setting := setup.setting host delegated
    let elements := setting.select w.scope.element q
    let atMatch := w.atMatch setting timing animation q options
    let step := (w.staggerTimings timing options).duration
    (∀ pre element post, elements = pre ++ element :: post →
      Visit setting tree (.start root setup sink) animation (atMatch pre element) ∧
        (atMatch pre element).timeline.start = w.currentTime + max 0 (Walk.delayOf options) +
          if 0 ≤ step then pre.length * step
          else ((elements.length : ℚ) - 1 - pre.length) * |step|) ∧
      ∀ timing' animation', (w.staggerTimings timing' options).easing ≠ some Walk.chainedEasing →
        (w.staggerTimings timing' options).duration = -step →
          w.starts setting timing' animation' q options
            = (w.starts setting timing animation q options).reverse := by
  intro setting elements atMatch step
  have hv : w.Valid := h.valid (Walk.valid_start root setup sink)
  refine ⟨fun pre element post selected => ⟨h.trans (visit_atMatch selected), ?_⟩,
    fun timing' animation' hspread' hopposite => ?_⟩
  · exact Walk.start_atMatch_of_unchained hv hspread animation selected
  · -- both lists are known place by place, and the step of the one is the opposite of that of the
    -- other
    rw [Walk.starts_of_unchained hv hspread', Walk.starts_of_unchained hv hspread, hopposite]
    refine List.ext_getElem (by simp) fun i hi _ => ?_
    rw [List.length_ofFn] at hi
    simp [Walk.spread_neg _ hi, step]

/-- A host on which every selector matches the same two elements. -/
def pairHost : Host := fun _ _ _ => [⟨10⟩, ⟨11⟩]

/-- An animation that stays on its own timeline. -/
def fadeIn : Animation ℚ := .animate (.ofDuration 100) (.style (.ofEntries [("p", .number 1)]))

/-- A step of minus a tenth of a second lets the second of two matches begin first. -/
theorem starts_spread_back :
    let setting := (Setup.standard : Setup ℚ).setting pairHost ∅
    let w := Walk.start ⟨1⟩ .standard []
    let options : Option (Options ℚ) := some (Options.none.withDelay (.number 50))
    let starts := fun step => w.starts setting (.ofDuration step) fadeIn (.ofWritten ".item") options
    Visit setting (.query (.ofWritten ".item") (.stagger (.ofDuration (-100)) fadeIn) options) w
        (.query (.ofWritten ".item") (.stagger (.ofDuration (-100)) fadeIn) options) w ∧
      (w.staggerTimings (.ofDuration (-100)) options).easing ≠ some Walk.chainedEasing ∧
        (w.staggerTimings (.ofDuration 100) options).easing ≠ some Walk.chainedEasing ∧
          starts (-100) = [150, 50] ∧ starts 100 = (starts (-100)).reverse := by
  intro setting w options starts
  have hvisit : Visit setting
      (.query (.ofWritten ".item") (.stagger (.ofDuration (-100)) fadeIn) options) w
      (.query (.ofWritten ".item") (.stagger (.ofDuration (-100)) fadeIn) options) w := .here _ _
  have hspread : ∀ step, (w.staggerTimings (.ofDuration step) options).easing
      ≠ some Walk.chainedEasing := fun _ => (Option.some_ne_none _).symm
  refine ⟨hvisit, hspread _, hspread _, by decide +kernel, ?_⟩
  exact (starts_spread hvisit (hspread _)).2 (.ofDuration 100) fadeIn (hspread _)
    (neg_neg (100 : ℚ)).symm

/-! ### Chains -/

/-- **When chained matches begin**: the first one at the clock of the query after its delay,
and each following one later by the time that the one before has recorded.  This is the end
of the one before if and only if what the query had consumed of the timeline around it,
together with its delay and with what the animation delayed its own timeline, makes up for
what the animation did after its own timeline was over. -/
theorem chained_iff {host : Host} {root : ElementId} {tree : Animation ℚ} {setup : Setup ℚ}
    {delegated : InstructionMap ℚ} {sink : List Diagnostic} {q : Selection} {timing : Timing ℚ}
    {animation : Animation ℚ} {options : Option (Options ℚ)} {w : Walk ℚ}
    (h : Visit (setup.setting host delegated) tree (.start root setup sink)
      (.query q (.stagger timing animation) options) w)
    (hdelay : 0 ≤ Walk.delayOf options)
    (hstep : 0 ≤ (w.staggerTimings timing options).duration)
    (hfull : (w.staggerTimings timing options).easing = some Walk.chainedEasing) :
    let setting := setup.setting host delegated
    let atMatch := w.atMatch setting timing animation q options
    let begun := w.currentTime + Walk.delayOf options
    (∀ first rest, setting.select w.scope.element q = first :: rest →
      (atMatch [] first).timeline.start = begun) ∧
    ∀ pre a b post, setting.select w.scope.element q = pre ++ a :: b :: post →
      let here := atMatch pre a
      let after := animation.body setting here
      let own := after.score.timeline here.scope.timeline
      let next := atMatch (pre ++ [a]) b
      let recorded := own.currentTime - here.currentTime + (own.start - w.timeline.start)
      next.timeline.start = begun + max 0 recorded ∧
        (0 ≤ recorded → (next.timeline.start = after.currentTime ↔
          begun - w.timeline.start + (own.start - here.timeline.start)
            = after.currentTime - own.currentTime)) := by
  intro setting atMatch begun
  have hv : w.Valid := h.valid (Walk.valid_start root setup sink)
  -- in a chain each match begins by what has been recorded so far
  have hbegins : ∀ done element, (atMatch done element).Begins (begun + max 0 (w.beforeMatch
      setting ((Animation.stagger timing animation).body setting) q options
        done).scope.staggerTime) := by
    intro done element
    have h := Walk.begins_atMatch setting timing animation q options done element hv
    rwa [max_eq_right hdelay, Walk.staggerDelay_of_chained hstep hfull] at h
  refine ⟨fun first rest _ => ?_, fun pre a b post _ => ?_⟩
  · -- nothing has been recorded yet
    have hnone : (w.beforeMatch setting ((Animation.stagger timing animation).body setting) q
        options []).scope.staggerTime = 0 :=
      (Walk.scope_openQuery q (setting.select w.scope.element q) options w).2.2
    have hfirst := (hbegins [] first).start_eq
    rwa [hnone, max_self, add_zero] at hfirst
  · intro here after own next recorded
    have hrecorded : (w.beforeMatch setting ((Animation.stagger timing animation).body setting) q
        options (pre ++ [a])).scope.staggerTime = recorded :=
      Walk.staggerTime_beforeMatch setting timing animation q options pre a hv
    have hnext : next.timeline.start = begun + max 0 recorded := by
      rw [← hrecorded]
      exact (hbegins (pre ++ [a]) b).start_eq
    -- the animation of a match begins where its timeline does
    have hhere : here.timeline.start = here.currentTime :=
      (hbegins pre a).start_eq.trans (hbegins pre a).currentTime_eq.symm
    refine ⟨hnext, fun hpos => ?_⟩
    rw [hnext, max_eq_right hpos, hhere]
    constructor
    · intro heq
      linarith
    · intro heq
      linarith

/-- A chained stagger. -/
def chainedTiming : Timing ℚ := .fixed ⟨0, 0, some Walk.chainedEasing⟩

/-- A chain of two at the very beginning of a timeline has no gap. -/
theorem chained_iff_pair :
    let setting := (Setup.standard : Setup ℚ).setting pairHost ∅
    let w := Walk.start ⟨1⟩ .standard []
    let atMatch := w.atMatch setting chainedTiming fadeIn (.ofWritten ".item") none
    Visit setting (.query (.ofWritten ".item") (.stagger chainedTiming fadeIn) none) w
        (.query (.ofWritten ".item") (.stagger chainedTiming fadeIn) none) w ∧
      (0 : ℚ) ≤ Walk.delayOf none ∧ 0 ≤ (w.staggerTimings chainedTiming none).duration ∧
        (w.staggerTimings chainedTiming none).easing = some Walk.chainedEasing ∧
          (atMatch [⟨10⟩] ⟨11⟩).timeline.start
            = (fadeIn.body setting (atMatch [] ⟨10⟩)).currentTime := by
  intro setting w atMatch
  have hvisit : Visit setting (.query (.ofWritten ".item") (.stagger chainedTiming fadeIn) none) w
      (.query (.ofWritten ".item") (.stagger chainedTiming fadeIn) none) w := .here _ _
  have hselect : setting.select w.scope.element (.ofWritten ".item")
      = [] ++ ⟨10⟩ :: ⟨11⟩ :: [] := by
    decide +kernel
  obtain ⟨-, hchain⟩ := chained_iff hvisit le_rfl le_rfl rfl
  refine ⟨hvisit, le_rfl, le_rfl, rfl, ((hchain [] ⟨10⟩ ⟨11⟩ [] hselect).2 ?_).2 ?_⟩
  · decide +kernel
  · decide +kernel

/-- Under a query with a delay the second of two chained matches begins when the first one
has been over for just that delay. -/
theorem not_chained_delayed :
    let options : Option (Options ℚ) := some (Options.none.withDelay (.number 50))
    let tree : Animation ℚ := .query (.ofWritten ".item") (.stagger chainedTiming fadeIn) options
    let setting := (Setup.standard : Setup ℚ).setting pairHost ∅
    let w := Walk.start ⟨1⟩ .standard []
    let atMatch := w.atMatch setting chainedTiming fadeIn (.ofWritten ".item") options
    (compile pairHost ⟨1⟩ tree .standard ∅).diagnostics = [] ∧
      setting.select w.scope.element (.ofWritten ".item") = [⟨10⟩, ⟨11⟩] ∧
        (atMatch [] ⟨10⟩).timeline.start = 50 ∧
          (fadeIn.body setting (atMatch [] ⟨10⟩)).currentTime = 150 ∧
            (atMatch [⟨10⟩] ⟨11⟩).timeline.start = 200 := by
  decide +kernel

end Choreography
