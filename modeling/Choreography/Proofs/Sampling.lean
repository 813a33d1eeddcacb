/-
Choreography/Proofs/Sampling.lean

What a player has to look up.

An instruction lists the properties that have to be looked up before the animation and those
that have to be looked up after it.  It is sampled if these are the properties for which some
keyframe holds a value that stands for what is looked up (`Instruction.Sampled`).

The lists of a timeline are read off its keyframes when they have been completed; sorting the
keyframes, and showing the only one twice, adds and loses no styles.  A placement takes over
the lists of its instruction, and with a delay folded in it has the same styles on its
keyframes.  Whatever is placed was delegated (`source_of_placed`), so lists that are right to
begin with stay right however often instructions are delegated.

Main result: `sampled_compile`.
-/
import Choreography.Animation.Build
import Choreography.Proofs.Finish
import Choreography.Proofs.Run

namespace Choreography

variable {τ : Type}

/-- The lists of properties are those for which a keyframe holds a placeholder. -/
structure Instruction.Sampled (i : Instruction τ) : Prop where
  before : ∀ property, property ∈ i.preStyleProps ↔
    ∃ k ∈ i.keyframes, k.styles.get? property = some .preSnapshot
  after : ∀ property, property ∈ i.postStyleProps ↔
    ∃ k ∈ i.keyframes, k.styles.get? property = some .auto

/-- Keyframes with the same styles hold the same values. -/
theorem holds_congr {ks ks' : List (Keyframe τ)}
    (h : ∀ styles, (∃ k ∈ ks, k.styles = styles) ↔ ∃ k ∈ ks', k.styles = styles)
    (property : String) (value : StyleValue τ) :
    (∃ k ∈ ks, k.styles.get? property = some value) ↔
      ∃ k ∈ ks', k.styles.get? property = some value := by
  constructor
  · rintro ⟨k, hk, hvalue⟩
    obtain ⟨k', hk', hstyles⟩ := (h k.styles).1 ⟨k, hk, rfl⟩
    exact ⟨k', hk', hstyles ▸ hvalue⟩
  · rintro ⟨k, hk, hvalue⟩
    obtain ⟨k', hk', hstyles⟩ := (h k.styles).2 ⟨k, hk, rfl⟩
    exact ⟨k', hk', hstyles ▸ hvalue⟩

/-- An instruction is sampled if another one is that has the same lists and the same styles. -/
theorem Instruction.Sampled.of_styles {i j : Instruction τ} (h : i.Sampled)
    (hbefore : j.preStyleProps = i.preStyleProps) (hafter : j.postStyleProps = i.postStyleProps)
    (hstyles : ∀ styles, (∃ k ∈ j.keyframes, k.styles = styles) ↔
      ∃ k ∈ i.keyframes, k.styles = styles) : j.Sampled where
  before property := by rw [hbefore, h.before, holds_congr hstyles]
  after property := by rw [hafter, h.after, holds_congr hstyles]

variable [Quantity τ]

theorem Instruction.sampled_empty (element : ElementId) (delay : τ) :
    (Instruction.empty element delay).Sampled where
  before _ := by simp [empty, OrderedSet.mem_def]
  after _ := by simp [empty, OrderedSet.mem_def]

/-! ### Timelines -/

namespace Scene

omit [Quantity τ] in
/-- A property is listed if some keyframe has such a value for it. -/
theorem mem_propsWith {value : StyleValue τ → Bool} {ks : List (Keyframe τ)} {property : String} :
    property ∈ propsWith value ks ↔
      ∃ k ∈ ks, ∃ v, k.styles.get? property = some v ∧ value v = true := by
  simp [propsWith, OrderedSet.mem_ofList, OrderedMap.mem_entries_iff]

omit [Quantity τ] in
theorem isPreSnapshot_iff {v : StyleValue τ} : isPreSnapshot v = true ↔ v = .preSnapshot := by
  cases v <;> simp [isPreSnapshot]

omit [Quantity τ] in
theorem isAuto_iff {v : StyleValue τ} : isAuto v = true ↔ v = .auto := by
  cases v <;> simp [isAuto]

/-- The lists are read off the keyframes before these are sorted. -/
theorem props_toInstruction (s : Scene τ) :
    s.toInstruction.preStyleProps = propsWith isPreSnapshot s.fractions ∧
      s.toInstruction.postStyleProps = propsWith isAuto s.fractions := by
  -- for the offsets a duration of zero is tested for twice
  have habsorb : ∀ b c : Bool, (b && c || c) = c := by decide
  simp only [toInstruction, habsorb]
  exact ⟨rfl, rfl⟩

/-- The instruction of a timeline is sampled. -/
theorem sampled_toInstruction (s : Scene τ) : s.toInstruction.Sampled := by
  obtain ⟨hbefore, hafter⟩ := s.props_toInstruction
  -- sorting changes the order of the keyframes, and none of their styles
  have hstyles : ∀ styles, (∃ k ∈ s.fractions, k.styles = styles) ↔
      ∃ k ∈ s.toInstruction.keyframes, k.styles = styles := by
    intro styles
    rw [mem_styles_toInstruction]
    simp [fractions]
  refine ⟨fun property => ?_, fun property => ?_⟩
  · rw [← holds_congr hstyles, hbefore, mem_propsWith]
    simp [isPreSnapshot_iff]
  · rw [← holds_congr hstyles, hafter, mem_propsWith]
    simp [isAuto_iff]

end Scene

/-! ### Placements -/

namespace Placement

/-- Folding a delay into the keyframes only repeats the first of them. -/
theorem mem_styles_stretchedKeyframes (p : Placement τ) (styles : StyleMap τ) :
    (∃ k ∈ p.stretchedKeyframes, k.styles = styles) ↔
      ∃ k ∈ p.source.keyframes, k.styles = styles := by
  unfold stretchedKeyframes
  cases p.source.keyframes with
  | nil => exact Iff.rfl
  | cons first rest => simp

/-- So is that of a placement if what it places is sampled. -/
theorem sampled_toInstruction {p : Placement τ} (h : p.source.Sampled) :
    p.toInstruction.Sampled := by
  unfold toInstruction
  -- whether or not its delay is folded into the keyframes
  split
  · exact h.of_styles rfl rfl p.mem_styles_stretchedKeyframes
  · exact h.of_styles rfl rfl fun _ => Iff.rfl

end Placement

/-! ### Where placements come from -/

namespace Walk

/-- Whatever is placed between two walks was made from an instruction of a kind. -/
def Places (D : Instruction τ → Prop) (w w' : Walk τ) : Prop :=
  ∀ p, .placed p ∈ w'.score.order → .placed p ∈ w.score.order ∨ D p.source

section Places

variable {D : Instruction τ → Prop} {w w' : Walk τ}

omit [Quantity τ]

theorem Places.of_order_eq (h : w'.score.order = w.score.order) : Places D w w' :=
  fun _ hp => .inl (h ▸ hp)

/-- To enter a timeline places nothing. -/
theorem Places.of_entered {id : TimelineId}
    (h : w'.score.order = w.score.order ++ [.timeline id]) : Places D w w' := by
  intro p hp
  rw [h, List.mem_append, List.mem_singleton] at hp
  exact .inl (hp.resolve_right fun heq => by cases heq)

theorem Places.trans {w'' : Walk τ} (h : Places D w w') (h' : Places D w' w'') : Places D w w'' :=
  fun p hp => (h' p hp).elim (h p) .inr

theorem Places.place {p : Placement τ} (h : D p.source) (w : Walk τ) :
    Places D w { w with score := w.score.place p } := by
  intro q hq
  rcases List.mem_append.1 hq with hq | hq
  · exact .inl hq
  · cases List.mem_singleton.1 hq
    exact .inr h

end Places

/-- Only to place an instruction adds a placement. -/
theorem Places.stepwise (D : Instruction τ → Prop) :
    Stepwise (Places D : Walk τ → Walk τ → Prop) where
  refl _ := .of_order_eq rfl
  trans := .trans
  change _ _ := .of_order_eq rfl
  merge _ _ := .of_order_eq (order_merge _ _ _)
  rescope _ _ _ _ := .of_order_eq rfl
  report _ _ := .of_order_eq rfl
  renew at? w := .of_entered (renew_order at? w)
  leave := by
    intro w u inner options element hs _ _ h
    have henter : Places D w (u.enter options element) := .of_entered (by rw [enter_order, hs])
    exact henter.trans h

/-- Whatever a run places was delegated. -/
theorem source_of_placed {setting : Setting τ} {root : ElementId} {tree : Animation τ}
    {setup : Setup τ} {sink : List Diagnostic} {p : Placement τ}
    (h : .placed p ∈ (run setting root tree setup sink).score.order) :
    ∃ element, p.source ∈ setting.delegated.instructions element := by
  let D : Instruction τ → Prop := fun i => ∃ element, i ∈ setting.delegated.instructions element
  have hstart : Places D (blank root setup sink) (start root setup sink) := by
    rw [start_eq]
    exact ((Places.stepwise D).delay _ _).trans ((Places.stepwise D).writeAt _ _ _)
  -- the tree places what is delegated to some element
  have hbody : Places D (start root setup sink) (run setting root tree setup sink) :=
    (Places.stepwise D).body (fun element p hp => .place ⟨element, hp⟩) tree _
  rcases hstart.trans hbody p h with hblank | hsource
  · -- to begin with there is only the root timeline
    cases List.mem_singleton.1 hblank
  · exact hsource

end Walk

/-! ### Runs -/

/-- **The lists of what is to be looked up are exact.**  If they are in every instruction that
is delegated, they are in every instruction that a run makes: a property is to be looked up
before the animation if and only if some keyframe holds the value that was on screen before for
it, and after the animation if and only if some keyframe holds the value that will be there. -/
theorem sampled_compile {host : Host} {root : ElementId} {tree : Animation τ} {setup : Setup τ}
    {delegated : InstructionMap τ}
    (h : ∀ element, ∀ i ∈ delegated.instructions element, i.Sampled) :
    ∀ i ∈ (compile host root tree setup delegated).instructions, i.Sampled := by
  intro i hi
  rcases mem_instructions hi with hempty | ⟨e, he, rfl⟩
  · rw [hempty, List.mem_singleton] at hi
    exact hi ▸ Instruction.sampled_empty root setup.delay
  · cases e with
    | timeline id => exact Scene.sampled_toInstruction _
    | placed p =>
      obtain ⟨element, hsource⟩ := Walk.source_of_placed (List.mem_of_mem_filter he)
      exact Placement.sampled_toInstruction (h element _ hsource)

/-- An element turns from what it was into what it will be. -/
def turning : Animation ℚ :=
  .sequence
    [.style (.ofEntries [("p", .text "!"), ("q", .number 1)]),
      .animate (.ofDuration 100) (.style (.ofEntries [("q", .text "*")]))]
    none

/-- What is looked up for it is looked up again when it is delegated with a delay that is folded
into its keyframes. -/
theorem sampled_compile_delegated :
    let first := compile (fun _ _ _ => []) ⟨1⟩ turning .standard ∅
    let delegated : InstructionMap ℚ :=
      .ofList [(⟨1⟩, first.instructions.map ({ · with stretchStart := true }))]
    let again := compile (fun _ _ _ => []) ⟨1⟩
      (.animateChild (some (Options.none.withDelay (.number 50)))) .standard delegated
    (∀ element, ∀ i ∈ delegated.instructions element, i.Sampled) ∧
      again.instructions.map (fun i =>
        (i.isStretched, i.keyframes.length, i.preStyleProps.toList, i.postStyleProps.toList)) =
          [(true, 3, ["p"], ["q"])] ∧
      ∀ i ∈ again.instructions, i.Sampled := by
  intro first delegated again
  have hfirst : ∀ i ∈ first.instructions, i.Sampled := sampled_compile fun _ _ hi => by cases hi
  have hdelegated : ∀ element, ∀ i ∈ delegated.instructions element, i.Sampled := by
    intro element i hi
    obtain ⟨j, hj, rfl⟩ := List.mem_map.1 (InstructionMap.mem_of_mem_instructions_ofList hi)
    exact (hfirst j hj).of_styles rfl rfl fun _ => Iff.rfl
  exact ⟨hdelegated, by decide +kernel, sampled_compile hdelegated⟩

end Choreography
