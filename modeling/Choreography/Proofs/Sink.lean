/-
Choreography/Proofs/Sink.lean

Diagnostics are only added to a sink.

Nobody reads what has been reported, so two runs that differ in what the sink holds before
are side by side: no time is moved, and they have everything in common
(`Correspondence.sinks`).  The second run therefore has the instructions of the first, and
reports the same after what was there (`appends_compileEach`).
-/
import Choreography.Proofs.Correspondence.Run

namespace Choreography

variable {τ : Type} [Quantity τ]

/-! ### Two sinks -/

/-- Two runs that differ in what their sinks hold before. -/
def Correspondence.sinks (sink sink' : List Diagnostic) : Correspondence τ where
  translation := .none
  extent := .all
  base := ⟨.begin default 0, .empty, sink⟩
  base' := ⟨.begin default 0, .empty, sink'⟩

theorem Correspondence.entire_sinks (sink sink' : List Diagnostic) :
    (sinks sink sink' : Correspondence τ).Entire :=
  ⟨rfl, rfl, rfl⟩

/-- If no time is moved and all is in common, every node does the same. -/
theorem Correspondence.allows_sinks (sink sink' : List Diagnostic) (node : Animation τ) :
    (sinks sink sink').Allows node :=
  allows_of_applies (fun _ _ _ => trivial) (fun step _ => .of_exact (x := .all) trivial step)
    (fun _ _ _ _ => ⟨trivial, .inl trivial⟩) fun _ _ _ => trivial

theorem Walk.corresponds_blank_sinks (root : ElementId) (setup : Setup τ)
    (sink sink' : List Diagnostic) :
    (blank root setup sink).Corresponds (.sinks sink sink') (blank root setup sink') := by
  have hc : (Correspondence.sinks sink sink' : Correspondence τ).Entire :=
    Correspondence.entire_sinks sink sink'
  refine ⟨hc.corresponds_begin root 0, valid_blank root setup sink, Nat.zero_le _, rfl, rfl, rfl,
    rfl, (fun t ht => by cases ht), rfl, rfl, ⟨[], ?_, ?_⟩, fun _ => ⟨rfl, rfl, rfl, rfl⟩⟩
  · rw [List.append_nil]
    rfl
  · rw [List.append_nil]
    rfl

/-- What a sink holds before does not matter, and is kept. -/
theorem compileInto_eq_append (host : Host) (root : ElementId) (tree : Animation τ)
    (setup : Setup τ) (delegated : InstructionMap τ) (sink : List Diagnostic) :
    compileInto host root tree setup delegated sink =
      ((compile host root tree setup delegated).instructions,
        sink ++ (compile host root tree setup delegated).diagnostics) := by
  -- the runs correspond from the delay of the root on
  have hroot := (Walk.tandem_delay setup.delay (Walk.blank root setup []) _).keeps
    (Walk.corresponds_blank_sinks root setup [] sink) (.inl trivial) trivial
  obtain ⟨hinstructions, reports, hreports, hreports'⟩ :=
    compileInto_eq (Correspondence.entire_sinks [] sink) host root delegated rfl rfl rfl rfl
      hroot.1 trivial (fun _ _ _ => .inl trivial)
      (fun node _ => Correspondence.allows_sinks [] sink node) (.inl trivial)
  -- no time is moved
  have hmoved : ∀ i : Instruction τ,
      i.moved (Correspondence.sinks (τ := τ) [] sink).translation.time = i := fun _ => rfl
  rw [List.map_congr_left fun i _ => hmoved i, List.map_id'] at hinstructions
  refine Prod.ext hinstructions ?_
  rw [hreports']
  show sink ++ reports = sink ++ (compileInto host root tree setup delegated []).2
  rw [hreports]
  rfl

/-! ### Many runs -/

/-- What a compilation is given. -/
structure Task (τ : Type) where
  host : Host
  root : ElementId
  tree : Animation τ
  setup : Setup τ
  delegated : InstructionMap τ

/-- The result of a task alone. -/
def Task.compiled (t : Task τ) : Compiled τ := compile t.host t.root t.tree t.setup t.delegated

/-- Performs tasks one after another, with one sink for all of them. -/
def compileEach : List (Task τ) → List Diagnostic → List (List (Instruction τ)) × List Diagnostic
  | [], sink => ([], sink)
  | t :: tasks, sink =>
    let (instructions, sink) := compileInto t.host t.root t.tree t.setup t.delegated sink
    let (more, sink) := compileEach tasks sink
    (instructions :: more, sink)

/-- **A sink is only added to**: whatever it holds, a run gives the instructions that it gives
with an empty sink, and leaves what was there followed by what it reports with an empty sink;
and so do any number of runs with one sink. -/
theorem appends_compileEach (sink : List Diagnostic) :
    (∀ (host : Host) (root : ElementId) (tree : Animation τ) (setup : Setup τ)
        (delegated : InstructionMap τ),
      compileInto host root tree setup delegated sink =
        ((compileInto host root tree setup delegated []).1,
          sink ++ (compileInto host root tree setup delegated []).2)) ∧
      ∀ tasks : List (Task τ), compileEach tasks sink =
        (tasks.map fun t => t.compiled.instructions,
          sink ++ tasks.flatMap fun t => t.compiled.diagnostics) := by
  refine ⟨fun host root tree setup delegated => compileInto_eq_append .., fun tasks => ?_⟩
  induction tasks generalizing sink with
  | nil => rw [compileEach, List.map_nil, List.flatMap_nil, List.append_nil]
  | cons t tasks ih =>
    rw [compileEach, compileInto_eq_append]
    dsimp only
    rw [ih, List.map_cons, List.flatMap_cons, List.append_assoc]
    rfl

end Choreography
