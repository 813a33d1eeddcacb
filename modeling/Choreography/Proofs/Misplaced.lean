/-
Choreography/Proofs/Misplaced.lean

Which staggers are reported as misplaced.

A stagger asks whether its scope was entered from another one, and not whether a query did so.  A
group, the use of a reference and a sequence with a delay or parameters enter scopes as well, so
below any of these a stagger is not reported, with or without a query.

What a stagger reports besides is about the expression of its timings, and never that a node is
in the wrong place (`Walk.reports_readTiming`).

Without a query there is a single position, the first of no matches, and no step delays it
(`Walk.idle`).  But a chained stagger asks for the time that the last sibling has recorded, which
there may well be.

Main result: `misplaced_stagger`.
-/
import Choreography.Proofs.Position

namespace Choreography

variable {τ : Type} [Quantity τ]

/-! ### What staggers report -/

/-- Whether a diagnostic says that a node is in the wrong place. -/
def Diagnostic.isStructural : Diagnostic → Bool
  | .malformedNode _ => true
  | _ => false

/-- A hole may be left unfilled, and that is not about where a node is. -/
theorem Template.not_structural_fillHole (params : Params τ) (hole : List Char) :
    ∀ d ∈ (fillHole params hole).2, d.isStructural = false := by
  unfold fillHole
  dsimp only
  split
  · simp
  · split <;> simp [Diagnostic.isStructural]

theorem Template.not_structural_render (params : Params τ) (t : Template) :
    ∀ d ∈ (t.render params).2, d.isStructural = false := by
  show ∀ d ∈ (fillHoles params t.holes).2, d.isStructural = false
  generalize t.holes = holes
  induction holes with
  | nil => simp [fillHoles]
  | cons hole holes ih =>
    exact List.forall_mem_append.2 ⟨not_structural_fillHole params hole.2, ih⟩

/-- Timings may be unreadable or negative, and that is not about where a node is. -/
theorem Timings.not_structural_read (expression : String) (allowNegative : Bool) :
    ∀ d ∈ (Timings.read (τ := τ) expression allowNegative).2, d.isStructural = false := by
  -- duration and delay are reported on their own
  have hparts : ∀ t : Timings τ, ∀ d ∈ t.negativeParts expression, d.isStructural = false := by
    intro t
    unfold negativeParts
    by_cases hduration : t.duration < 0 <;> by_cases hdelay : t.delay < 0 <;>
      simp [hduration, hdelay, Diagnostic.isStructural]
  unfold Timings.read
  split
  · simp [Diagnostic.isStructural]
  · cases allowNegative
    · exact hparts _
    · simp

namespace Walk

/-- Reading timings may report something, but not that a node is in the wrong place. -/
theorem reports_readTiming (timing : Timing τ) (allowNegative : Bool) (w : Walk τ) :
    ∃ reports, (w.readTiming timing allowNegative).2.diagnostics = w.diagnostics ++ reports ∧
      ∀ d ∈ reports, d.isStructural = false := by
  cases timing with
  | fixed t => exact ⟨[], (List.append_nil _).symm, by simp⟩
  | expression text =>
    simp only [readTiming, report]
    exact ⟨_, rfl, List.forall_mem_append.2
      ⟨Template.not_structural_render _ _, Timings.not_structural_read _ _⟩⟩

/-- What a stagger reports, it does before its animation runs. -/
theorem diagnostics_stagger (body : Body τ) (timing : Timing τ) (w : Walk τ) :
    (w.stagger body timing).diagnostics = (body (w.atStagger timing)).diagnostics := by
  cases h : w.scope.outer with
  | none =>
    rw [atStagger_of_none h, stagger, h]
    rfl
  | some outer =>
    have hopen : w.atStagger timing = w.openStagger timing outer := by
      unfold atStagger
      rw [h]
    rw [hopen, stagger, h]
    rfl

/-! ### Staggers at the first of no matches -/

/-- Whether a stagger lets each match begin when the one before it has ended. -/
def Chains (timings : Timings τ) : Prop :=
  ¬timings.duration < 0 ∧ timings.easing = some chainedEasing

/-- Numbers with which no step delays the first of no matches. -/
def Idle (τ : Type) [Quantity τ] : Prop :=
  ∀ timings : Timings τ, ¬Chains timings → ∀ chained, ¬0 < staggerDelay timings 0 0 chained

/-- Rational numbers are such numbers. -/
theorem idle : Idle ℚ := by
  intro timings hchains chained
  -- a negative step goes back from the end, which would be before the first match
  simp only [staggerDelay]
  split
  · next hneg =>
    have hsize : 0 ≤ Quantity.magnitude timings.duration := by
      rw [Quantity.magnitude, if_pos hneg, zero_sub]
      exact (neg_pos.2 hneg).le
    refine not_lt.2 ?_
    rw [Nat.cast_zero, mul_zero, sub_zero, zero_sub, mul_neg_one]
    exact neg_nonpos.2 hsize
  · next hneg =>
    rw [if_neg fun hfull => hchains ⟨hneg, hfull⟩, Nat.cast_zero, mul_zero]
    exact lt_irrefl 0

theorem seat_start (root : ElementId) (setup : Setup τ) (sink : List Diagnostic) :
    (start root setup sink).seat = ⟨false, 0, 0⟩ :=
  seat_of_scope (w := blank root setup sink) (scope_delay setup.delay (blank root setup sink))

/-- At the first of no matches only a chained stagger is delayed. -/
theorem score_atStagger (hidle : Idle τ) {timing : Timing τ} {w : Walk τ}
    (hindex : w.scope.index = 0) (htotal : w.scope.total = 0)
    (hchains : ¬Chains (w.readTiming timing true).1) :
    (w.atStagger timing).score = w.score := by
  -- outside all scopes there is only the report
  cases h : w.scope.outer with
  | none =>
    rw [atStagger_of_none h]
    rfl
  | some outer =>
    rw [atStagger_of_some h, hindex, htotal, delay, if_neg (hidle _ hchains _), score_readTiming]

end Walk

/-! ### Misplaced staggers -/

/-- **A stagger is reported as misplaced, and then once, just if no node around it has opened a
scope**, and then it is not delayed.  If there is one, but no query, only a chained stagger is
delayed. -/
theorem misplaced_stagger {host : Host} {root : ElementId} {tree : Animation τ} {setup : Setup τ}
    {delegated : InstructionMap τ} {sink : List Diagnostic} {above before : List (Animation τ)}
    {timing : Timing τ} {animation : Animation τ} {v : Walk τ}
    (h : Descent (setup.setting host delegated) tree (.start root setup sink) above before
      (.stagger timing animation) v) :
    let setting := setup.setting host delegated
    let inner := v.atStagger timing
    ∃ reports, inner.diagnostics = v.diagnostics ++ reports ∧
      ((Animation.stagger timing animation).body setting v).diagnostics
        = (animation.body setting inner).diagnostics ∧
      reports.filter Diagnostic.isStructural
        = (if above.any Animation.opensScope then [] else [.staggerOutsideQuery]) ∧
      (above.any Animation.opensScope = false → inner.score = v.score) ∧
      (Walk.Idle τ → (∀ a ∈ above, a.kind ≠ .query) →
        ¬Walk.Chains (v.readTiming timing true).1 → inner.score = v.score) := by
  intro setting inner
  have hbody := Walk.diagnostics_stagger (animation.body setting) timing v
  have hinner : v.scope.outer.isSome = above.any Animation.opensScope := by
    refine h.seat_inner.trans ?_
    rw [Walk.seat_start, Bool.false_or]
  -- without a query the position is the one at the root
  have hscore : Walk.Idle τ → (∀ a ∈ above, a.kind ≠ .query) →
      ¬Walk.Chains (v.readTiming timing true).1 → inner.score = v.score := by
    intro hidle hq hchains
    have hseat := h.seat_eq hq
    rw [Walk.seat_start, Seat.vacatedIf_of_zero] at hseat
    exact Walk.score_atStagger hidle (congrArg Seat.index hseat) (congrArg Seat.total hseat) hchains
  -- reported outside all scopes, and maybe delayed inside of one
  cases houter : v.scope.outer with
  | none =>
    rw [houter] at hinner
    have hreport : inner = v.report [.staggerOutsideQuery] := Walk.atStagger_of_none houter timing
    refine ⟨_, congrArg Walk.diagnostics hreport, hbody, ?_, fun _ => ?_, hscore⟩
    · rw [← hinner]
      rfl
    · rw [hreport]
      rfl
  | some outer =>
    rw [houter] at hinner
    obtain ⟨reports, hreports, hnone⟩ := Walk.reports_readTiming timing true v
    have hopen : inner.diagnostics = v.diagnostics ++ reports := by
      show (v.atStagger timing).diagnostics = _
      rw [Walk.atStagger_of_some houter, Walk.diagnostics_delay, hreports]
    refine ⟨reports, hopen, hbody, ?_, fun hscoped => ?_, hscore⟩
    · rw [← hinner]
      exact List.filter_eq_nil_iff.2 fun d hd => by simp [hnone d hd]
    · exact absurd (hinner.trans hscoped).symm Bool.false_ne_true

/-- A stagger in a sequence without options is reported once and not delayed.  In a group it is
not reported, and as it is not chained it is not delayed either. -/
theorem misplaced_stagger_inSequence :
    let setting := (Setup.standard : Setup ℚ).setting pairHost ∅
    let w := Walk.start ⟨1⟩ .standard []
    let tree : Animation ℚ := .sequence [.stagger (.ofDuration 100) fadeIn] none
    let inner := w.atStagger (.ofDuration 100)
    let grouped : Animation ℚ := .group [.stagger (.ofDuration 100) fadeIn] none
    let v := w.atBranch none (bodies setting [])
    let innerGrouped := v.atStagger (.ofDuration 100)
    (Descent setting tree w [tree] [] (.stagger (.ofDuration 100) fadeIn) w ∧
      inner.diagnostics.filter Diagnostic.isStructural = [.staggerOutsideQuery] ∧
        inner.score = w.score) ∧
      Descent setting grouped w [grouped] [] (.stagger (.ofDuration 100) fadeIn) v ∧
        innerGrouped.diagnostics.filter Diagnostic.isStructural = [] ∧
          innerGrouped.score = v.score := by
  intro setting w tree inner grouped v innerGrouped
  have hdescent : Descent setting tree w [tree] [] (.stagger (.ofDuration 100) fadeIn) w :=
    .step [] (.here _ w)
  obtain ⟨reports, hreports, -, hown, hscore, -⟩ := misplaced_stagger hdescent
  have hstart : w.diagnostics = [] := rfl
  have hgrouped : Descent setting grouped w [grouped] [] (.stagger (.ofDuration 100) fadeIn) v :=
    .branch [] (.here _ v)
  obtain ⟨reports', hreports', -, hown', -, hidle⟩ := misplaced_stagger hgrouped
  have hbranch : v.diagnostics = [] := rfl
  have hquery : ∀ a ∈ [grouped], a.kind ≠ .query := by decide
  have hchains : ¬Walk.Chains (v.readTiming (.ofDuration 100) true).1 :=
    fun h => nomatch h.2
  refine ⟨⟨hdescent, ?_, hscore rfl⟩, hgrouped, ?_, hidle Walk.idle hquery hchains⟩
  · rw [hreports, hstart, List.nil_append, hown]
    rfl
  · rw [hreports', hbranch, List.nil_append, hown']
    rfl

/-- Two chained staggers side by side. -/
def chainedSiblings : Animation ℚ :=
  .group [.stagger chainedTiming fadeIn, .stagger chainedTiming fadeIn] none

/-- Below a group nothing is reported, and the second of them waits for the first. -/
theorem not_misplaced_chainedSiblings :
    let setting := (Setup.standard : Setup ℚ).setting pairHost ∅
    let w := Walk.start ⟨1⟩ .standard []
    let v := w.atBranch none (bodies setting [.stagger chainedTiming fadeIn])
    Descent setting chainedSiblings w [chainedSiblings] [] (.stagger chainedTiming fadeIn) v ∧
      (∀ a ∈ [chainedSiblings], a.kind ≠ .query) ∧
        (v.atStagger chainedTiming).currentTime = v.currentTime + 100 ∧
          (compile pairHost ⟨1⟩ chainedSiblings .standard ∅).diagnostics = [] := by
  intro setting w v
  refine ⟨?_, ?_, ?_, ?_⟩
  · exact .branch [.stagger chainedTiming fadeIn] (.here _ v)
  · decide
  · decide +kernel
  · decide +kernel

end Choreography
