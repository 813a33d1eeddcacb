/-
Choreography/Proofs/Forward.lean

The clock of a run only goes forward.

A run comes to the nodes of its tree, to the styles and keyframes that animated steps lead
to, and to the references that are used somewhere.  Each of these takes it from one walk to
another (`Passage`).

Two facts about a passage are put together here.  The walks in between belong to the run, so
with a clean result nothing was reported in any of them (`Passage.follows`), and what a tame
part of a tree enters begins where the clock stood or later (`Passage.spans`).  The main
result is `forward_of_passage`.
-/
import Choreography.Proofs.Overlap
import Choreography.Proofs.Stagger
import Choreography.Proofs.Written

namespace Choreography

/-! ### Passages -/

section Passages

variable {τ : Type} [Quantity τ]

/-- The walk in which an animated step has waited for its delay. -/
def Walk.afterDelay (timing : Timing τ) (w : Walk τ) : Walk τ :=
  (w.readTiming timing false).2.openAnimate (w.readTiming timing false).1

/-- Compiling a tree in the walk `w₀` comes to a part of it in one walk and leaves it in
another one. -/
inductive Passage (setting : Setting τ) (tree : Animation τ) (w₀ : Walk τ) :
    Walk τ → Walk τ → Prop
  | node {node : Animation τ} {v : Walk τ} :
      Visit setting tree w₀ node v → Passage setting tree w₀ v (node.body setting v)
  | style {timing : Timing τ} {step : StyleStep τ} {v : Walk τ} :
      Visit setting tree w₀ (.animate timing (.style step)) v →
        Passage setting tree w₀ (v.atPayload timing) ((v.atPayload timing).style step)
  | keyframes {timing : Timing τ} {steps : List (StyleStep τ)} {v : Walk τ} :
      Visit setting tree w₀ (.animate timing (.keyframes steps)) v →
        Passage setting tree w₀ (v.afterDelay timing) ((v.afterDelay timing).keyframes steps)
  | used {animation : Animation τ} {defaults options : Option (Options τ)} {v : Walk τ} :
      Visit setting tree w₀ (.animateRef animation defaults options) v →
        Passage setting tree w₀ (v.openUse defaults options)
          ((v.openUse defaults options).reference (animation.body setting) defaults)

variable {setting : Setting τ} {tree : Animation τ} {w₀ v v' : Walk τ}

namespace Walk

/-- Keyframes are what an animated step with keyframes does after its delay. -/
theorem effect_animate_of_keyframes (timing : Timing τ) (steps : List (StyleStep τ))
    (w : Walk τ) :
    Effect ((w.afterDelay timing).keyframes steps) (w.animate timing (.keyframes steps)) :=
  (Effect.compositional.withTimings none _).trans (Effect.compositional.after .animate _)

/-- A style is what an animated step with a style does at the end of its duration. -/
theorem effect_animate_of_style (timing : Timing τ) (step : StyleStep τ) (w : Walk τ) :
    Effect ((w.atPayload timing).style step) (w.animate timing (.style step)) :=
  ((Effect.change _ .flush).trans (Effect.compositional.withTimings none _)).trans
    (Effect.compositional.after .animate _)

/-- After a used reference its scope is left. -/
theorem precedes_animateRef (body : Body τ) (defaults options : Option (Options τ))
    (w : Walk τ) :
    Precedes ((w.openUse defaults options).reference body defaults)
      (w.animateRef body defaults options) :=
  (Precedes.leave w.scope _).trans
    ((effect_renew _ _).trans (Effect.compositional.after .animateRef _)).precedes

end Walk

/-- What compiling the tree leads to continues what each part of it leads to. -/
theorem Passage.follows (h : Passage setting tree w₀ v v') :
    v'.Precedes (tree.body setting w₀) := by
  -- the rest of a node comes after a part of it
  cases h with
  | node h => exact h.follows
  | style h => exact (Walk.effect_animate_of_style _ _ _).precedes.trans h.follows
  | keyframes h => exact (Walk.effect_animate_of_keyframes _ _ _).precedes.trans h.follows
  | used h => exact (Walk.precedes_animateRef _ _ _ _).trans h.follows

end Passages

/-! ### The spans of passages -/

namespace Walk

variable {D : Placement ℚ → Prop} {S : Entry ℚ → Prop}

/-- Waiting for the delay of an animated step goes forward. -/
theorem proceeds_afterDelay (timing : Timing ℚ) (w : Walk ℚ) :
    Proceeds D S w (w.afterDelay timing) :=
  Proceeds.trans (proceeds_readTiming timing false w) (proceeds_openAnimate _ _)

theorem timings_afterDelay (timing : Timing ℚ) (w : Walk ℚ) :
    (w.afterDelay timing).scope.timings = some (w.readTiming timing false).1 :=
  timings_openAnimate _ _

/-- Nothing was reported about the timings if nothing has been reported after the delay. -/
theorem nonneg_afterDelay {timing : Timing ℚ} {target : Target ℚ}
    (h : validateAnimate timing target = .ok ()) {w : Walk ℚ}
    (hclean : (w.afterDelay timing).diagnostics = []) :
    0 ≤ (w.readTiming timing false).1.duration :=
  nonneg_readTiming h ((Effect.compositional.openAnimate _ _).precedes.clean hclean)

end Walk

variable {D : Placement ℚ → Prop} {setting : Setting ℚ} {tree : Animation ℚ} {w₀ v v' : Walk ℚ}

/-- If nothing was reported, a part of a tame tree has a span that ends where it leaves the
clock. -/
theorem Passage.spans (h : Passage setting tree w₀ v v') (ht : tree.Tame setting D)
    (hw : w₀.Valid) (hc : w₀.score.Clocked D) (hclean : v'.diagnostics = []) :
    Walk.Spans D (fun _ => True) v v' v'.currentTime := by
  -- a passage that proceeds from a walk in order has a span
  have hspans : ∀ {u u' : Walk ℚ}, Walk.Opens D w₀ u → Walk.Proceeds D (fun _ => True) u u' →
      u'.diagnostics = [] → Walk.Spans D (fun _ => True) u u' u'.currentTime := by
    intro u u' hopens hproceeds hclean
    have hbefore := hproceeds.effect.precedes.clean hclean
    exact hproceeds.spans (hopens.valid hw) (hopens.clocked hw hc hbefore) hclean
  cases h with
  | node h =>
    obtain ⟨hnode, hopens⟩ := h.opens ht
    exact hspans hopens (hnode.proceeds _) hclean
  | @style timing step u h =>
    obtain ⟨hnode, hopens⟩ := h.opens ht
    -- the time before the style is that of the delay and of the whole duration
    have hstyle := Walk.proceeds_style (D := D) (S := fun _ => True) step (u.atPayload timing)
    have hbefore := hstyle.effect.precedes.clean hclean
    have hadvance := Walk.Effect.compositional.advance (τ := ℚ)
      (u.readTiming timing false).1.duration (u.afterDelay timing)
    have hnonneg := Walk.nonneg_afterDelay hnode.valid (hadvance.precedes.clean hbefore)
    have hpayload : Walk.Proceeds D (fun _ => True) u (u.atPayload timing) :=
      (Walk.proceeds_afterDelay timing u).trans (Walk.proceeds_advance hnonneg _)
    exact hspans (hopens.trans hpayload.opens) hstyle hclean
  | @keyframes timing steps u h =>
    obtain ⟨hnode, hopens⟩ := h.opens ht
    have hbefore := (Walk.Effect.compositional.keyframes steps _).precedes.clean hclean
    have hkeyframes := Walk.proceeds_keyframes (D := D) (S := fun _ => True)
      (Walk.timings_afterDelay timing u) (Walk.nonneg_afterDelay hnode.valid hbefore)
      (validateKeyframes_of_validateAnimate hnode.valid)
    exact hspans (hopens.trans (Walk.proceeds_afterDelay (S := fun _ => True) timing u).opens)
      hkeyframes hclean
  | @used animation defaults options u h =>
    obtain ⟨hnode, hopens⟩ := h.opens ht
    -- the used animation runs after two delays, that of the use and that of the reference
    have hanimation : animation.Tame setting D := hnode.inner hnode.valid fun _ ho => ho
    have hopen : Walk.Opens D u (u.openUse defaults options) :=
      (Walk.opens_enter u _ _).trans (((Walk.proceeds_renew _).trans
        (Walk.proceeds_referenceDelay options _)).trans
          (Walk.proceeds_referenceDelay (S := fun _ => True) defaults _)).opens
    have hreference : Walk.Proceeds D (fun _ => True) (u.openUse defaults options)
        ((u.openUse defaults options).reference (animation.body setting) defaults) :=
      ((Walk.proceeds_update true defaults _).trans (hanimation.proceeds _)).trans
        (Walk.proceeds_after .reference _)
    exact hspans (hopens.trans hopen) hreference hclean

/-- **The clock of a run never goes back**: in a run of a valid tree without a report, whatever
part of the tree is compiled leaves the clock where it stood or later, and each timeline and
each placement that was entered meanwhile begins where the clock stood or later. -/
theorem forward_of_passage {host : Host} {root : ElementId} {setup : Setup ℚ}
    {delegated : InstructionMap ℚ} (hvalid : tree.validate = .ok ())
    (hclean : (compile host root tree setup delegated).diagnostics = [])
    (hoptions : ∀ o ∈ tree.childOptions, 0 ≤ Walk.delayOf (some o))
    (hdelegated : ∀ e, ∀ i ∈ delegated.instructions e, 0 ≤ i.delay)
    (h : Passage (setup.setting host delegated) tree (.start root setup []) v v') :
    v.currentTime ≤ v'.currentTime ∧
      ∀ e ∈ v.registered v', v.currentTime ≤ v'.score.begins e := by
  have htame : tree.Tame (setup.setting host delegated) fun _ => True :=
    ⟨hvalid, hoptions, hdelegated, fun _ _ _ _ _ _ _ => trivial⟩
  have hafter := h.follows.clean (diagnostics_run_of_clean hclean)
  have hstart : (Walk.start root setup []).diagnostics = [] :=
    (tree.effect _ _).precedes.clean (diagnostics_run_of_clean hclean)
  have hspans := h.spans htame (Walk.valid_start root setup []) (Walk.clocked_start hstart) hafter
  exact ⟨hspans.le, hspans.begins⟩

/-- An element and two others take turns; the first one waits for an animation that it
already has. -/
def takingTurns : Animation ℚ :=
  .query (.ofWritten ":self, .item")
    (.stagger (.fixed ⟨-30, 0, none⟩)
      (.sequence [.animateChild (some (Options.none.withDelay (.number 10))), fadeIn] none))
    (some (Options.none.withDelay (.number 50)))

/-- In such a run the clock goes on, and nothing begins before the query. -/
theorem forward_of_passage_turns :
    let setting := (Setup.standard : Setup ℚ).setting pairHost fading
    let before := Walk.start ⟨1⟩ .standard []
    let after := takingTurns.body setting before
    takingTurns.validate = .ok () ∧
      (compile pairHost ⟨1⟩ takingTurns .standard fading).diagnostics = [] ∧
        (∀ o ∈ takingTurns.childOptions, 0 ≤ Walk.delayOf (some o)) ∧
          (∀ e, ∀ i ∈ fading.instructions e, 0 ≤ i.delay) ∧
            before.currentTime ≤ after.currentTime ∧
              ∀ e ∈ before.registered after, before.currentTime ≤ after.score.begins e := by
  intro setting before after
  have hvalid : takingTurns.validate = .ok () := by decide +kernel
  have hclean : (compile pairHost ⟨1⟩ takingTurns .standard fading).diagnostics = [] := by
    decide +kernel
  have hoptions : ∀ o ∈ takingTurns.childOptions, 0 ≤ Walk.delayOf (some o) := by
    decide +kernel
  have hdelegated : ∀ e, ∀ i ∈ fading.instructions e, 0 ≤ i.delay := by
    intro e i hi
    rw [List.mem_singleton.1 (InstructionMap.mem_of_mem_instructions_ofList hi)]
    decide +kernel
  exact ⟨hvalid, hclean, hoptions, hdelegated,
    forward_of_passage hvalid hclean hoptions hdelegated (.node (.here _ _))⟩

end Choreography
