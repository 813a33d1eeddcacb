/-
Choreography/Proofs/Parameters/Precedence.lean

Which parameters are in force in the body of a reference.

The use of a reference declares its own parameters over those around it; the reference then declares
its defaults where nothing is in force.  Both are declared one after another, and each is
interpolated in the parameters declared so far.  So the defaults that are still needed are declared
like all the others, after them (`extend_eq_declare`), and all that has to be known of parameters is
what a single list of declarations does (`get?_declare`).

Main result: `precedence_animateRef`.
-/
import Choreography.Proofs.Parameters

namespace Choreography

variable {τ : Type} [Quantity τ]

/-! ### Declarations -/

namespace Params

/-- Parameters with others declared one after another, each interpolated in those before it. -/
def declare (params : Params τ) : List (String × Scalar τ) → Params τ
  | [] => params
  | (name, value) :: rest => declare (params.insert name (value.interpolate params).1) rest

omit [Quantity τ] in
/-- The declarations of parameters that have no value yet. -/
def lacking (params : Params τ) (declared : List (String × Scalar τ)) : List (String × Scalar τ) :=
  declared.filter fun entry => !params.contains entry.1

variable {params : Params τ} {pre post declared : List (String × Scalar τ)} {name : String}
  {value : Scalar τ}

/-- Parameters may be declared in two parts. -/
theorem declare_append (params : Params τ) (xs ys : List (String × Scalar τ)) :
    params.declare (xs ++ ys) = (params.declare xs).declare ys := by
  induction xs generalizing params with
  | nil => rfl
  | cons x xs ih => exact ih _

/-- Declared parameters are added to those that were there. -/
theorem mem_keys_declare :
    name ∈ (params.declare declared).keys ↔ name ∈ params.keys ∨ name ∈ declared.map Prod.fst := by
  induction declared generalizing params with
  | nil => simp [declare]
  | cons entry rest ih =>
    rw [declare, ih, OrderedMap.mem_keys_insert, List.map_cons, List.mem_cons,
      or_comm (a := name = _), or_assoc]

/-- A parameter that is not declared stays as it is. -/
theorem get?_declare_of_notMem (h : name ∉ declared.map Prod.fst) :
    (params.declare declared).get? name = params.get? name := by
  induction declared generalizing params with
  | nil => rfl
  | cons entry rest ih =>
    rw [List.map_cons, List.mem_cons, not_or] at h
    rw [declare, ih h.2, OrderedMap.get?_insert, if_neg h.1]

/-- A parameter that is declared once has the value of its declaration, interpolated in the
parameters declared until then. -/
theorem get?_declare (h : ((pre ++ (name, value) :: post).map Prod.fst).Nodup) :
    (params.declare (pre ++ (name, value) :: post)).get? name =
      some (value.interpolate (params.declare pre)).1 := by
  -- the name is declared once, so what comes later does not replace its value
  have hpost : name ∉ post.map Prod.fst := by
    rw [List.map_append, List.map_cons] at h
    exact (List.nodup_cons.1 (List.nodup_append.1 h).2.1).1
  rw [declare_append, declare, get?_declare_of_notMem hpost, OrderedMap.get?_insert, if_pos rfl]

/-- What is brought into force over what is there already is declared. -/
theorem addParams_false (declared : List (String × Scalar τ)) (params : Params τ) :
    (Overrides.addParams false declared params).1 = params.declare declared := by
  induction declared generalizing params with
  | nil => rfl
  | cons entry rest ih => exact ih _

omit [Quantity τ] in
theorem contains_insert_of_ne {name' : String} (h : name' ≠ name) :
    (params.insert name value).contains name' = params.contains name' := by
  rw [← OrderedMap.get?_isSome, OrderedMap.get?_insert, if_neg h, OrderedMap.get?_isSome]

/-- Of what gives way to what is there already, the rest is declared. -/
theorem extend_eq_declare (h : (declared.map Prod.fst).Nodup) :
    extend declared params = params.declare (params.lacking declared) := by
  -- on what is declared; the parameters grow along the way
  induction declared generalizing params with
  | nil => rfl
  | cons entry rest ih =>
    obtain ⟨name, value⟩ := entry
    obtain ⟨hname, hrest⟩ := List.nodup_cons.1 h
    by_cases hc : params.contains name
    · have hstep : extend ((name, value) :: rest) params = extend rest params := by
        rw [extend, Overrides.addParams, Bool.true_and, if_pos hc, extend]
      rw [hstep, ih hrest, lacking, lacking, List.filter_cons_of_neg (by simp [hc])]
    · have hstep : extend ((name, value) :: rest) params =
          extend rest (params.insert name (value.interpolate params).1) := by
        rw [extend, Overrides.addParams, Bool.true_and, if_neg hc]
        rfl
      -- what comes into force here is not declared again, so it keeps nothing from being declared
      have hlacking : lacking (params.insert name (value.interpolate params).1) rest =
          params.lacking rest := by
        refine List.filter_congr fun entry hentry => ?_
        have hne : entry.1 ≠ name := by
          rintro rfl
          exact hname (List.mem_map.2 ⟨entry, hentry, rfl⟩)
        rw [contains_insert_of_ne hne]
      rw [hstep, ih hrest, hlacking, lacking, lacking, List.filter_cons_of_pos (by simp [hc]),
        declare]

omit [Quantity τ] in
theorem mem_names_lacking :
    name ∈ (params.lacking declared).map Prod.fst ↔
      name ∈ declared.map Prod.fst ∧ name ∉ params.keys := by
  simp only [lacking, List.mem_map, List.mem_filter, Bool.not_eq_true', ← Bool.not_eq_true,
    OrderedMap.contains_iff_mem_keys]
  constructor
  · rintro ⟨entry, ⟨hentry, hnew⟩, rfl⟩
    exact ⟨⟨entry, hentry, rfl⟩, hnew⟩
  · rintro ⟨⟨entry, hentry, rfl⟩, hnew⟩
    exact ⟨entry, ⟨hentry, hnew⟩, rfl⟩

end Params

/-! ### Precedence -/

/-- The parameters of a use come before those around it, and these before the defaults of what is
used.  Each is interpolated in those that were in scope when its turn came. -/
structure Precedence (around : Params τ) (own defaults : List (String × Scalar τ))
    (scope : Params τ) : Prop where
  /-- The parameters of the use have the values given there. -/
  own_first : ∀ pre name value post, own = pre ++ (name, value) :: post →
    scope.get? name = some (value.interpolate (around.declare pre)).1
  /-- The others around keep their values. -/
  around_next : ∀ name, name ∉ own.map Prod.fst → name ∈ around.keys →
    scope.get? name = around.get? name
  /-- What is left has its default. -/
  defaults_last : ∀ pre name value post, defaults = pre ++ (name, value) :: post →
    name ∉ own.map Prod.fst → name ∉ around.keys →
      scope.get? name = some (value.interpolate
        ((around.declare own).declare ((around.declare own).lacking pre))).1
  /-- There are no more. -/
  names : ∀ name, name ∈ scope.keys ↔
    name ∈ own.map Prod.fst ∨ name ∈ around.keys ∨ name ∈ defaults.map Prod.fst

open Params in
/-- Declaring first and extending then respects the precedence. -/
theorem precedence_extend (around : Params τ) {own defaults : List (String × Scalar τ)}
    (hown : (own.map Prod.fst).Nodup) (hdefaults : (defaults.map Prod.fst).Nodup) :
    Precedence around own defaults (Params.extend defaults (around.declare own)) := by
  have hkeys : ∀ name, name ∈ (around.declare own).keys ↔
      name ∈ around.keys ∨ name ∈ own.map Prod.fst := fun name => mem_keys_declare
  -- what is left of the defaults has no name of the use or of what is around
  have hlacking : (((around.declare own).lacking defaults).map Prod.fst).Nodup :=
    hdefaults.sublist (List.filter_sublist.map Prod.fst)
  have hapart : (own.map Prod.fst).Disjoint
      (((around.declare own).lacking defaults).map Prod.fst) := by
    intro name hname hlacks
    exact (mem_names_lacking.1 hlacks).2 ((hkeys name).2 (.inr hname))
  -- all that is declared, each name once
  have hnodup : ((own ++ (around.declare own).lacking defaults).map Prod.fst).Nodup := by
    rw [List.map_append]
    exact hown.append hlacking hapart
  rw [extend_eq_declare hdefaults, ← declare_append]
  refine { own_first := ?own_first, around_next := ?around_next, defaults_last := ?defaults_last,
           names := ?names }
  case own_first =>
    rintro pre name value post rfl
    rw [List.append_assoc, List.cons_append] at hnodup ⊢
    exact get?_declare hnodup
  case around_next =>
    intro name hname haround
    refine get?_declare_of_notMem ?_
    rw [List.map_append, List.mem_append, mem_names_lacking, hkeys]
    tauto
  case defaults_last =>
    rintro pre name value post rfl hname haround
    have hnew : (around.declare own).contains name = false := by
      rw [← Bool.not_eq_true, OrderedMap.contains_iff_mem_keys, hkeys]
      tauto
    have hsplit : (around.declare own).lacking (pre ++ (name, value) :: post) =
        (around.declare own).lacking pre ++ (name, value) :: (around.declare own).lacking post := by
      rw [lacking, List.filter_append, List.filter_cons_of_pos (by simp [hnew])]
      rfl
    rw [hsplit, ← List.append_assoc] at hnodup ⊢
    rw [get?_declare hnodup, declare_append]
  case names =>
    intro name
    rw [mem_keys_declare, List.map_append, List.mem_append, mem_names_lacking, hkeys]
    tauto

/-! ### The body of a reference -/

omit [Quantity τ] in
theorem Options.nodup_declared (options : Option (Options τ)) :
    ((declared options).map Prod.fst).Nodup := OrderedMap.nodup _

namespace Walk

theorem options_referenceDelay (options : Option (Options τ)) (w : Walk τ) :
    (w.referenceDelay options).scope.options = w.scope.options := by
  unfold referenceDelay
  -- no delay, a plain one, or a text that is read with the parameters in force
  split
  · rfl
  · split
    · rfl
    · rw [scope_delay]
      rfl

/-- A use declares its own parameters, and its delays do not change them. -/
theorem params_openUse (defaults options : Option (Options τ)) (w : Walk τ) :
    (w.openUse defaults options).scope.options.params =
      w.scope.options.params.declare (Options.declared options) := by
  rw [openUse, options_referenceDelay, options_referenceDelay, ← Params.addParams_false]
  cases options <;> rfl

theorem params_update (defaults : Option (Options τ)) (w : Walk τ) :
    (w.update true defaults).scope.options.params =
      w.scope.options.params.extend (Options.declared defaults) := by
  cases defaults <;> rfl

end Walk

/-- **In the body of a reference the parameters of its use come first**, then those around the use,
and then the defaults of the reference. -/
theorem precedence_animateRef {setting : Setting τ} {tree animation : Animation τ}
    {defaults options : Option (Options τ)} {w v : Walk τ}
    (h : Visit setting tree w (.animateRef animation defaults options) v) :
    let u := (v.openUse defaults options).update true defaults
    Visit setting tree w animation u ∧
      Precedence v.scope.options.params (Options.declared options) (Options.declared defaults)
        u.scope.options.params := by
  intro u
  refine ⟨h.trans (.use (.here _ _)), ?_⟩
  -- the use declares, and the defaults extend what it has declared
  rw [Walk.params_update, Walk.params_openUse]
  exact precedence_extend _ (Options.nodup_declared options) (Options.nodup_declared defaults)

/-- Of the two declarations of `x` the outer one counts, and of those of `y` the inner one; each
default that is left sees what was declared before it. -/
theorem precedence_animateRef_inSequence :
    let hole := fun name => "\x7b\x7b" ++ name ++ "\x7d\x7d"
    let around : Options ℚ := (Options.none.withParam "x" (.text "1")).withParam "y" (.text "2")
    let own : Options ℚ := (Options.none.withParam "y" (.text (hole "x" ++ hole "y"))).withParam "z"
      (.text (hole "y"))
    let defaults : Options ℚ := ((Options.none.withParam "x" (.text "9")).withParam "a"
      (.text (hole "x" ++ hole "z"))).withParam "b" (.text (hole "a" ++ "px"))
    let body : Animation ℚ :=
      .animate (.ofDuration 100) (.style (.ofEntries [("q", .text (hole "b"))]))
    let setting := (Setup.standard : Setup ℚ).setting (fun _ _ _ => []) ∅
    let start := Walk.start ⟨1⟩ (.standard : Setup ℚ) []
    let v := start.openSequence (some around)
    let scope := ((v.openUse (some defaults) (some own)).update true (some
      defaults)).scope.options.params
    Visit setting (.sequence [.animateRef body (some defaults) (some own)] (some around)) start
        (.animateRef body (some defaults) (some own)) v ∧
      scope.get? "x" = some (.text "1") ∧
        scope.get? "y" = some (.text "12") ∧
          scope.get? "z" = some (.text "12") ∧
            scope.get? "a" = some (.text "112") ∧
              scope.get? "b" = some (.text "112px") := by
  intro hole around own defaults body setting start v scope
  let node : Animation ℚ := .animateRef body (some defaults) (some own)
  have hvisit : Visit setting (.sequence [node] (some around)) start node v := by
    have hstep : Visit setting (.sequence ([] ++ node :: []) (some around)) start node v :=
      .step (.here _ _)
    exact hstep
  have hown : Options.declared (some own) =
      [("y", .text (hole "x" ++ hole "y")), ("z", .text (hole "y"))] := by
    decide +kernel
  have hdefaults : Options.declared (some defaults) = [("x", .text "9"),
      ("a", .text (hole "x" ++ hole "z")), ("b", .text (hole "a" ++ "px"))] := by
    decide +kernel
  obtain ⟨-, hprecedence⟩ := precedence_animateRef hvisit
  rw [hown, hdefaults] at hprecedence
  refine ⟨hvisit, ?_, ?_, ?_, ?_, ?_⟩
  · exact (hprecedence.around_next "x" (by decide) (by decide +kernel)).trans (by decide +kernel)
  · exact (hprecedence.own_first [] "y" _ _ rfl).trans (by decide +kernel)
  · exact (hprecedence.own_first [_] "z" _ _ rfl).trans (by decide +kernel)
  · exact (hprecedence.defaults_last [_] "a" _ _ rfl (by decide) (by decide +kernel)).trans
      (by decide +kernel)
  · exact (hprecedence.defaults_last [_, _] "b" _ _ rfl (by decide) (by decide +kernel)).trans
      (by decide +kernel)

end Choreography
