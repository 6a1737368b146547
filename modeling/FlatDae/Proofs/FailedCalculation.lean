/-
Module: FlatDae.Proofs.FailedCalculation
Purpose: What a calculation that fails leaves behind. There is no table of values then. But each dependent
  parameter that comes before the failure in the order of evaluation has its value recorded already, and
  keeps it; no other variable changes.
Main exports: Model.Finds, Model.FailsAfter, Model.calculate_eq_error, Model.Finds.calculate_run,
  Model.OfConstants.calculate_answer, Model.Reachable.calculate_failure
-/
import FlatDae.Proofs.EvaluatorAgreement
import FlatDae.Proofs.ParameterValues

namespace FlatDae

open FlatDae.Expr (Graph)

namespace Model

/-! ### Values found in turn -/

/-- Evaluating definitions one after the other, each over the values found before, leads from one table
    to the other. -/
inductive Finds (m : Model) : ParameterTable → List (Definition × Float) → ParameterTable → Prop where
  | nil (table : ParameterTable) : Finds m table [] table
  | cons {table table' : ParameterTable} {d : Definition} {value : Float}
      {found : List (Definition × Float)} (hvalue : (m.environment table).evaluate d.value = .ok value)
      (hrest : Finds m (table.push d.symbol value) found table') :
      Finds m table ((d, value) :: found) table'

/-- How a calculation fails, and for which definitions it has found values by then. -/
inductive FailsAfter (m : Model) : List (Definition × Float) → ModelError → Prop where
  /-- A constant or parameter has nothing that gives its value; this is noticed first of all. -/
  | missingValue {v : VarId} (hv : v ∈ m.registered) (htabled : (m.store.get v).isTabled = true)
      (hnone : (m.store.get v).value? = none) : FailsAfter m [] (.missingValue (m.store.get v).name)
  /-- Values refer to each other in a circle, so that there is no order of evaluation. -/
  | cyclicDependency {ds : Array Definition} {cycle : List Nat} (hds : m.definitions = .ok ds)
      (hcycle : IsCycle (references ds) cycle) :
      FailsAfter m [] (.cyclicDependency (cycle.map fun i => (ds.getD i default).name))
  /-- The value of `d` cannot be found over the values found before. -/
  | definition {ds : Array Definition} {found : List (Definition × Float)} {d : Definition}
      {rest : List Definition} {table : ParameterTable} {error : ModelError}
      (hds : m.definitions = .ok ds)
      (horder : definitionOrder ds = .ok (found.map Prod.fst ++ d :: rest))
      (hfound : m.Finds {} found table)
      (hfailed : (m.environment table).evaluate d.value = .error error) : FailsAfter m found error

theorem Finds.of_environment_eq {m m' : Model} {table table' : ParameterTable}
    {found : List (Definition × Float)} (h : m'.Finds table found table')
    (henvironment : m'.environment = m.environment) : m.Finds table found table' := by
  induction h with
  | nil table => exact .nil table
  | cons hvalue _ ih =>
      rw [henvironment] at hvalue
      exact .cons hvalue ih

/-- Calculating definitions that have values records them and goes on with the others. -/
theorem Finds.run {m : Model} {table table' : ParameterTable} {found : List (Definition × Float)}
    (h : m.Finds table found table') (rest : List Definition) :
    ((found.map Prod.fst ++ rest).foldlM calculateDefinition table).run m =
      (rest.foldlM calculateDefinition table').run (m.recordValues found) := by
  induction found generalizing m table with
  | nil =>
      cases h
      rfl
  | cons f found ih =>
      cases h with
      | @cons _ _ d value _ hvalue hrest =>
          rw [List.map_cons, List.cons_append, List.foldlM_cons, EStateM.run_bind, calculateDefinition_run,
            hvalue]
          exact ih (hrest.of_environment_eq (recordValue_environment m (d, value)).symm)

/-- Calculating definitions one after the other stops at the first that has no value, with the values of
    those before it recorded. The induction is on the definitions still to come. -/
theorem calculateDefinitions_eq_error {ds : List Definition} {m m' : Model} {table : ParameterTable}
    {error : ModelError} (h : (ds.foldlM calculateDefinition table).run m = .error error m') :
    ∃ found d rest table', ds = found.map Prod.fst ++ d :: rest ∧ m.Finds table found table' ∧
      (m.environment table').evaluate d.value = .error error ∧ m' = m.recordValues found := by
  induction ds generalizing m table with
  | nil => cases h
  | cons d ds ih =>
      simp only [List.foldlM_cons, EStateM.run_bind, calculateDefinition_run] at h
      cases hvalue : (m.environment table).evaluate d.value with
      | error error' =>
          rw [hvalue] at h
          obtain ⟨rfl, rfl⟩ := EStateM.Result.error.inj h
          exact ⟨[], d, ds, table, rfl, .nil table, hvalue, rfl⟩
      | ok value =>
          rw [hvalue] at h
          obtain ⟨found, d', rest, table', rfl, hfound, hfailed, rfl⟩ := ih h
          rw [recordValue_environment] at hfailed
          exact ⟨(d, value) :: found, d', rest, table', rfl,
            .cons hvalue (hfound.of_environment_eq (recordValue_environment m _)), hfailed, rfl⟩

/-- A calculation that fails has found the values of definitions up to the one that has none, and has
    recorded them. -/
theorem calculate_eq_error {m m' : Model} {error : ModelError} (h : calculate.run m = .error error m') :
    ∃ found, m.FailsAfter found error ∧ m' = m.withoutValues.recordValues found := by
  rw [calculate_run_eq] at h
  cases hds : m.definitions with
  | error error' =>
      rw [hds] at h
      obtain ⟨rfl, rfl⟩ := EStateM.Result.error.inj h
      obtain ⟨v, hv, htabled, hnone, rfl⟩ := definitions_eq_error hds
      exact ⟨[], .missingValue hv htabled hnone, rfl⟩
  | ok ds =>
      rw [hds] at h
      cases horder : definitionOrder ds with
      | error error' =>
          simp only [horder] at h
          obtain ⟨rfl, rfl⟩ := EStateM.Result.error.inj h
          obtain ⟨cycle, hcycle, rfl⟩ := definitionOrder_eq_error horder
          exact ⟨[], .cyclicDependency hds hcycle, rfl⟩
      | ok order =>
          simp only [horder] at h
          cases hrun : (order.foldlM calculateDefinition {}).run m.withoutValues with
          | ok table last =>
              rw [hrun] at h
              cases h
          | error error' last =>
              rw [hrun] at h
              obtain ⟨rfl, rfl⟩ := EStateM.Result.error.inj h
              obtain ⟨found, d, rest, table, rfl, hfound, hfailed, rfl⟩ :=
                calculateDefinitions_eq_error hrun
              exact ⟨found, .definition hds horder (hfound.of_environment_eq rfl) hfailed, rfl⟩

/-- If a definition has no value over those found before, the calculation fails there. -/
theorem Finds.calculate_run {m : Model} {table : ParameterTable} {found : List (Definition × Float)}
    {ds : Array Definition} {d : Definition} {rest : List Definition} {error : ModelError}
    (h : m.Finds {} found table) (hds : m.definitions = .ok ds)
    (horder : definitionOrder ds = .ok (found.map Prod.fst ++ d :: rest))
    (hfailed : (m.environment table).evaluate d.value = .error error) :
    calculate.run m = .error error (m.withoutValues.recordValues found) := by
  have hfound : m.withoutValues.Finds {} found table := h.of_environment_eq rfl
  have hfailed' : ((m.withoutValues.recordValues found).environment table).evaluate d.value =
      .error error := by
    rw [recordValues_environment]
    exact hfailed
  rw [calculate_run_eq, hds]
  simp only [horder, hfound.run, List.foldlM_cons, EStateM.run_bind, calculateDefinition_run, hfailed']

namespace FailsAfter

variable {m : Model} {found : List (Definition × Float)} {error : ModelError}
  (h : m.FailsAfter found error)
include h

/-- What has a value by then are definitions of registered variables. -/
theorem defined {f : Definition × Float} (hf : f ∈ found) :
    f.1.target ∈ m.registered ∧ m.defined? f.1.target = some f.1 := by
  cases h with
  | missingValue => cases hf
  | cyclicDependency => cases hf
  | definition hds horder =>
      exact defined_of_mem_order hds horder (List.mem_append_left _ (List.mem_map_of_mem hf))

/-- They are definitions of different variables. -/
theorem nodup_targets (happart : m.RegisteredApart) : (found.map fun f => f.1.target).Nodup := by
  cases h with
  | missingValue => exact List.nodup_nil
  | cyclicDependency => exact List.nodup_nil
  | definition hds horder =>
      have hnodup := nodup_targets_of_order happart hds horder
      rw [List.map_append, List.map_map] at hnodup
      exact (List.nodup_append.1 hnodup).1

end FailsAfter

/-- The rows of the values found are those of their definitions. -/
theorem Finds.nodes {m : Model} {table table' : ParameterTable} {found : List (Definition × Float)}
    (h : m.Finds table found table') :
    table'.nodes = table.nodes ++ (found.map Prod.fst).map Definition.symbol := by
  induction h with
  | nil => simp
  | cons _ _ ih => simp [ih, ParameterTable.nodes_push]

/-! ### Values that are numbers -/

/-- Every constant or parameter has a number for its value expression. -/
def OfConstants (m : Model) : Prop :=
  ∀ v ∈ m.registered, (m.store.get v).isTabled = true →
    ∃ id c, (m.store.get v).value? = some (.constant id c)

/-- So do all definitions have numbers. -/
theorem OfConstants.definition {m : Model} (h : m.OfConstants) {ds : Array Definition}
    (hds : m.definitions = .ok ds) {d : Definition} (hd : d ∈ ds.toList) :
    ∃ id c, d.value = .constant id c := by
  rw [(definitions_eq_ok_iff.1 hds).2] at hd
  obtain ⟨v, hv, hdefined⟩ := List.mem_filterMap.1 hd
  obtain ⟨htabled, hvalue, -⟩ := Variable.defined?_eq_some hdefined
  obtain ⟨id, c, hconstant⟩ := h v (Array.mem_toList_iff.1 hv) htabled
  exact ⟨id, c, Option.some.inj (hvalue.symm.trans hconstant)⟩

/-- Then nothing can go wrong: no value is missing, none refers to another, and each is a number. -/
theorem OfConstants.not_failsAfter {g : Graph} {m : Model} (h : m.OfConstants)
    (happart : m.RegisteredApart) (hdrawn : m.DrawnFrom g) (found : List (Definition × Float))
    (error : ModelError) : ¬ m.FailsAfter found error := by
  intro hfails
  cases hfails with
  | missingValue hv htabled hnone =>
      obtain ⟨id, c, hvalue⟩ := h _ hv htabled
      rw [hnone] at hvalue
      cases hvalue
  | @cyclicDependency ds _ hds hcycle =>
      obtain ⟨i, j, hrefers⟩ := hcycle.exists_refers
      have hlt : i < ds.toList.length := by simpa [references] using hrefers.lt_left
      obtain ⟨d', -, hmention⟩ := (refers_references_iff (hdrawn.definitions happart hds)
        (List.getElem?_eq_getElem hlt)).1 hrefers
      obtain ⟨id, c, hvalue⟩ := h.definition hds (List.getElem_mem hlt)
      rw [hvalue, Expr.symbols_constant] at hmention
      cases hmention
  | @definition ds _ d rest table _ hds horder hfound hfailed =>
      have hperm := definitionOrder_perm horder
      have hmem : d ∈ found.map Prod.fst ++ d :: rest := List.mem_append_right _ List.mem_cons_self
      obtain ⟨id, c, hvalue⟩ := h.definition hds (hperm.mem_iff.1 hmem)
      have horderDrawn := (hdrawn.definitions happart hds).of_perm hperm
      have hkeyed : table.KeyedBySymbols g :=
        keyedBySymbols_of_nodes (horderDrawn.sublist (List.sublist_append_left _ _))
          (by rw [hfound.nodes]; exact .refl _)
      rw [hvalue, environment,
        Environment.evaluate_constant (hvalue ▸ horderDrawn.values d hmem) hkeyed] at hfailed
      cases hfailed

theorem OfConstants.calculate_answer {g : Graph} {m : Model} (h : m.OfConstants)
    (happart : m.RegisteredApart) (hdrawn : m.DrawnFrom g) : calculate.answer m = .ok () := by
  cases hrun : calculate.run m with
  | ok a m' => rw [Action.answer, hrun]
  | error error m' =>
      obtain ⟨found, hfails, -⟩ := calculate_eq_error hrun
      exact absurd hfails (h.not_failsAfter happart hdrawn found error)

/-! ### Failures -/

/-- A calculation that fails leaves no table. It stops at the first definition, in the order of
    evaluation, that has no value, and the dependent parameters before that keep the values that were
    found for them. All other variables are as they were; so nothing at all changes if no dependent
    parameter comes before the failure. -/
theorem Reachable.calculate_failure {allowed : Model → Operation → Prop} {m : Model} {error : ModelError}
    (h : m.Reachable allowed) (hfailed : calculate.answer m = .error error) :
    (calculate.after m).parameters.isEmpty = true ∧ (calculate.after m).parametersValid = false ∧
    ∃ found, m.FailsAfter found error ∧
      (∀ f ∈ found, f.1.target ∈ m.registered ∧ m.defined? f.1.target = some f.1) ∧
      (∀ f ∈ found, f.1.dependent = true → ∃ id, (calculate.after m).store.get f.1.target =
        (m.store.get f.1.target).withAttribute Variable.evaluatedBindingAttribute
          (.expr (.constant id f.2))) ∧
      ∀ v, (∀ f ∈ found, f.1.target = v → f.1.dependent = false) →
        (calculate.after m).store.get v = m.store.get v := by
  have happart := h.registeredApart
  unfold Action.answer at hfailed
  unfold Action.after
  cases hrun : calculate.run m with
  | ok a m' =>
      rw [hrun] at hfailed
      cases hfailed
  | error error' m' =>
      rw [hrun] at hfailed
      obtain rfl := Except.error.inj hfailed
      obtain ⟨found, hfails, rfl⟩ := calculate_eq_error hrun
      have hupdates : Updates m.withoutValues (m.withoutValues.recordValues found) :=
        .recordValues found m.withoutValues
      refine ⟨by rw [hupdates.rest]; rfl, by rw [hupdates.rest]; rfl, found, hfails,
        fun f hf => hfails.defined hf, fun f hf hdependent => ?_, fun v hv => ?_⟩
      · exact recordValues_get found m.withoutValues (hfails.nodup_targets happart) hf hdependent
          (happart.exist _ (hfails.defined hf).1)
      · exact recordValues_get_same found m.withoutValues hv

/-! ### A parameter whose value cannot be found -/

/-- A parameter that is bound to an expression. -/
def parameterBoundTo (name : String) (id : NodeId) (value : Expr) : Variable :=
  { symbol := .symbol id name
    name
    name_eq := (Expr.print_symbol id name).symm
    domain := .real
    causality := .internal
    variability := .parameter
    attributes := (∅ : Attributes).insert Variable.bindingAttribute (.expr value) }

/-- The definition of such a parameter. -/
def definitionBoundTo (v : VarId) (name : String) (id : NodeId) (value : Expr) : Definition :=
  { target := v, name, symbol := .symbol id name, value, dependent := !value.symbols.isEmpty }

theorem definition?_boundTo {m : Model} {v : VarId} {name : String} {id : NodeId} {value : Expr}
    (h : m.store.get v = { parameterBoundTo name id value with
      declaredType := some (.builtin .real)
      kind := some (.parameter .real (!value.symbols.isEmpty)) }) :
    m.definition? v = .ok (some (definitionBoundTo v name id value)) := by
  rw [definition?, h, definitionBoundTo]
  cases value.symbols.isEmpty <;> rfl

/-- The parameters `p = 2`, `q = p` and `r = x`. -/
def openParameters : Model :=
  Operation.run (Operation.run (Operation.run {} (.create (parameterBoundTo "p" 1 (.constant 2 2.0))))
    (.create (parameterBoundTo "q" 3 (.symbol 1 "p")))) (.create (parameterBoundTo "r" 4 (.symbol 5 "x")))

/-- The model in which they are registered. Nothing is known of `x`. -/
def openParameterModel : Model :=
  Operation.run (Operation.run (Operation.run openParameters (.addVariable ⟨0⟩)) (.addVariable ⟨1⟩))
    (.addVariable ⟨2⟩)

/-- Their definitions. -/
def openDefinitions : List Definition :=
  [definitionBoundTo ⟨0⟩ "p" 1 (.constant 2 2.0), definitionBoundTo ⟨1⟩ "q" 3 (.symbol 1 "p"),
    definitionBoundTo ⟨2⟩ "r" 4 (.symbol 5 "x")]

theorem openParameterModel_reachable : openParameterModel.Reachable fun _ _ => True := by
  have hcreated : openParameters.Reachable fun _ _ => True :=
    .step _ (.step _ (.step _ .start rfl trivial) rfl trivial) rfl trivial
  exact .step (.addVariable ⟨2⟩) (.step (.addVariable ⟨1⟩) (.step (.addVariable ⟨0⟩) hcreated
    (by decide : 0 < 3) trivial) (by decide : 1 < 3) trivial) (by decide : 2 < 3) trivial

theorem openParameterModel_definitions :
    openParameterModel.definitions = .ok openDefinitions.toArray := by
  have hregistered : openParameterModel.registered = #[⟨0⟩, ⟨1⟩, ⟨2⟩] := rfl
  have hp : openParameterModel.definition? ⟨0⟩ =
      .ok (some (definitionBoundTo ⟨0⟩ "p" 1 (.constant 2 2.0))) := definition?_boundTo rfl
  have hq : openParameterModel.definition? ⟨1⟩ =
      .ok (some (definitionBoundTo ⟨1⟩ "q" 3 (.symbol 1 "p"))) := definition?_boundTo rfl
  have hr : openParameterModel.definition? ⟨2⟩ =
      .ok (some (definitionBoundTo ⟨2⟩ "r" 4 (.symbol 5 "x"))) := definition?_boundTo rfl
  rw [definitions, hregistered]
  simp only [List.mapM_cons, List.mapM_nil, hp, hq, hr]
  rfl

/-- `q` refers to `p`, and nothing else does to anything. -/
theorem definitionOrder_openDefinitions :
    definitionOrder openDefinitions.toArray = .ok openDefinitions := by
  have hreferences : references openDefinitions.toArray = #[[], [0], []] := by
    simp [references, openDefinitions, definitionBoundTo, Expr.id, Std.HashMap.getElem_insert]
  rw [definitionOrder, hreferences, dependencyOrder_of_backward]
  · rfl
  · rintro i j ⟨hj, -⟩
    rcases i with _ | _ | _ | i
    · cases hj
    · obtain rfl := List.mem_singleton.1 hj
      exact Nat.zero_lt_one
    · cases hj
    · cases hj

/-- The values of `p` and `q`. -/
def openFound : List (Definition × Float) :=
  [(definitionBoundTo ⟨0⟩ "p" 1 (.constant 2 2.0), 2.0),
    (definitionBoundTo ⟨1⟩ "q" 3 (.symbol 1 "p"), 2.0)]

/-- The calculation fails at `r`, with the value 2 for `p` and for `q`. -/
theorem calculate_run_openParameterModel : calculate.run openParameterModel =
    .error (.unresolved "x" (Expr.symbol 5 "x").print)
      (openParameterModel.withoutValues.recordValues openFound) := by
  have hleaf (table : ParameterTable) {e : Expr} (h : e.children = []) :
      (openParameterModel.environment table).evaluate e =
        (openParameterModel.environment table).treeEvaluate e :=
    Environment.evaluate_leaf _ h
  have hfound : openParameterModel.Finds {} openFound _ :=
    .cons (hleaf _ rfl) (.cons (hleaf _ rfl) (.nil _))
  exact hfound.calculate_run openParameterModel_definitions definitionOrder_openDefinitions (hleaf _ rfl)

/-- One failure is not without effect: it leaves the value of `q` recorded. -/
theorem calculate_failure_recorded :
    (openParameterModel.Reachable fun _ _ => True) ∧
    calculate.answer openParameterModel = .error (.unresolved "x" (Expr.symbol 5 "x").print) ∧
    (openParameterModel.store.get ⟨1⟩).attributes[Variable.evaluatedBindingAttribute]? = none ∧
    (∃ id, ((calculate.after openParameterModel).store.get ⟨1⟩).attributes[
      Variable.evaluatedBindingAttribute]? = some (.expr (.constant id 2.0))) ∧
    ¬ ∀ v, (calculate.after openParameterModel).store.get v = openParameterModel.store.get v := by
  have hrun := calculate_run_openParameterModel
  have hbefore : (openParameterModel.store.get ⟨1⟩).attributes[Variable.evaluatedBindingAttribute]? =
      none := rfl
  have hafter : ∃ id, ((calculate.after openParameterModel).store.get ⟨1⟩).attributes[
      Variable.evaluatedBindingAttribute]? = some (.expr (.constant id 2.0)) := by
    have hdependent : (definitionBoundTo ⟨1⟩ "q" 3 (.symbol 1 "p")).dependent = true := by
      simp [definitionBoundTo]
    obtain ⟨id, hrecorded⟩ := recordValues_get openFound openParameterModel.withoutValues (by decide)
      (List.mem_cons_of_mem _ List.mem_cons_self) hdependent (by decide : 1 < 3)
    refine ⟨id, ?_⟩
    rw [Action.after, hrun]
    exact (congrArg (fun var : Variable => var.attributes[Variable.evaluatedBindingAttribute]?)
      hrecorded).trans Std.TreeMap.getElem?_insert_self
  refine ⟨openParameterModel_reachable, ?_, hbefore, hafter, fun hsame => ?_⟩
  · rw [Action.answer, hrun]
  · obtain ⟨id, hid⟩ := hafter
    rw [hsame, hbefore] at hid
    cases hid

/-- All that is left of the failed calculation is what it found before. -/
theorem calculate_failure_open :
    (openParameterModel.Reachable fun _ _ => True) ∧
    ∃ found, openParameterModel.FailsAfter found (.unresolved "x" (Expr.symbol 5 "x").print) ∧
      ∀ v, (∀ f ∈ found, f.1.target = v → f.1.dependent = false) →
        (calculate.after openParameterModel).store.get v = openParameterModel.store.get v := by
  have hfailed : calculate.answer openParameterModel =
      .error (.unresolved "x" (Expr.symbol 5 "x").print) := by
    rw [Action.answer, calculate_run_openParameterModel]
  obtain ⟨-, -, found, hfails, -, -, hsame⟩ :=
    Reachable.calculate_failure openParameterModel_reachable hfailed
  exact ⟨openParameterModel_reachable, found, hfails, hsame⟩

end Model

end FlatDae
