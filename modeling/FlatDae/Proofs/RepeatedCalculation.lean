/-
Module: FlatDae.Proofs.RepeatedCalculation
Purpose: Calculating again. What a calculation finds rests on the definitions of the variables and on the
  functions, and it changes neither: it writes nothing into a variable but the one attribute that no
  definition reads. So a second calculation finds what the first one found, fails where it failed, and
  records the same values. All that a calculation or an evaluation changes is said on the way.
Main exports: Variable.Renewed, Model.ChangesValues, Model.foundValues_calculate_after,
  Model.Reachable.calculate_again
-/
import FlatDae.Proofs.CurrentValues
import FlatDae.Proofs.FailedCalculation

namespace FlatDae

/-- `Renewed a b`: the variable `b` is `a`, or it is `a` with the value that was found for it recorded once
    more, as a new node of the very same value. -/
inductive Variable.Renewed : Variable → Variable → Prop where
  | same (var : Variable) : Renewed var var
  | again (var : Variable) (i j : NodeId) (value : Float)
      (recorded : var.attributes[evaluatedBindingAttribute]? = some (.expr (.constant i value))) :
      Renewed var (var.withAttribute evaluatedBindingAttribute (.expr (.constant j value)))

namespace Model

/-- Nothing was changed but the values of the model and those recorded in its dependent parameters. New nodes
    may have been made for these. -/
structure ChangesValues (m m' : Model) : Prop where
  rest : m' = { m with supply := m'.supply, store := m'.store, parameters := m'.parameters
                       parametersValid := m'.parametersValid }
  size : m'.store.cells.size = m.store.cells.size
  cells : ∀ v, m'.store.get v = m.store.get v ∨
    v ∈ m.registered ∧ (m.store.get v).isDependentParameter = true ∧
    ∃ id value, m'.store.get v = (m.store.get v).withAttribute Variable.evaluatedBindingAttribute
      (.expr (.constant id value))

/-! ### What a calculation leaves -/

/-- What is found rests on the definitions and functions, and a calculation keeps these. -/
theorem foundValues_calculate_after (m : Model) : (calculate.after m).foundValues = m.foundValues := by
  have hkeeps : KeepsValues m.withoutValues (m.withoutValues.recordValues m.foundValues) :=
    .of_updates (.recordValues m.foundValues m.withoutValues)
  have hdefinitions : (calculate.after m).definitions = m.definitions := by
    rw [(calculate_after_eq m).1]
    exact hkeeps.definitions_eq
  have henvironment : (calculate.after m).environment = m.environment := by
    funext table
    rw [environment, calculate_after_functions, environment]
  rw [foundValues, hdefinitions, henvironment, foundValues]

section Found

variable {m : Model}

/-- Values are found for an initial part of the definitions in their order. -/
theorem foundValues_prefix (m : Model) : m.foundValues = [] ∨ ∃ ds order, m.definitions = .ok ds ∧
    definitionOrder ds = .ok order ∧ m.foundValues.map Prod.fst <+: order := by
  unfold foundValues
  cases hds : m.definitions with
  | error error => exact Or.inl rfl
  | ok ds =>
      cases horder : definitionOrder ds with
      | error error => exact Or.inl (by simp [Except.bind, horder])
      | ok order =>
          refine Or.inr ⟨ds, order, rfl, horder, ?_⟩
          simpa [Except.bind, horder] using valuesFound_prefix m.environment {} order

/-- They are values of registered variables. -/
theorem defined_of_mem_foundValues {f : Definition × Float} (hf : f ∈ m.foundValues) :
    f.1.target ∈ m.registered ∧ m.defined? f.1.target = some f.1 := by
  rcases foundValues_prefix m with hnone | ⟨ds, order, hds, horder, hinitial⟩
  · rw [hnone] at hf
    cases hf
  · exact defined_of_mem_order hds horder (hinitial.subset (List.mem_map_of_mem hf))

theorem nodup_foundValues (happart : m.RegisteredApart) :
    (m.foundValues.map fun f => f.1.target).Nodup := by
  rcases foundValues_prefix m with hnone | ⟨ds, order, hds, horder, hinitial⟩
  · rw [hnone]
    exact List.nodup_nil
  · have hnodup := (hinitial.sublist.map Definition.target).nodup (nodup_targets_of_order happart hds horder)
    rwa [List.map_map] at hnodup

/-- Recording what is found changes a variable in the same way whatever model it is recorded in: not at all,
    or it sets the value of a registered dependent parameter. -/
theorem recordValues_foundValues_get (happart : m.RegisteredApart) (v : VarId) :
    (∀ m' : Model, (m'.recordValues m.foundValues).store.get v = m'.store.get v) ∨
    (v ∈ m.registered ∧ (m.store.get v).isDependentParameter = true) ∧ ∃ value, ∀ m' : Model,
      m'.store.cells.size = m.store.cells.size → ∃ id, (m'.recordValues m.foundValues).store.get v =
        (m'.store.get v).withAttribute Variable.evaluatedBindingAttribute (.expr (.constant id value)) := by
  by_cases hfound : ∃ f ∈ m.foundValues, f.1.target = v ∧ f.1.dependent = true
  · obtain ⟨f, hf, rfl, hdependent⟩ := hfound
    obtain ⟨hregistered, hdefined⟩ := defined_of_mem_foundValues hf
    obtain ⟨-, -, -, -, hkind⟩ := Variable.defined?_eq_some hdefined
    refine Or.inr ⟨⟨hregistered, hkind ▸ hdependent⟩, f.2, fun m' hsize => ?_⟩
    exact recordValues_get m.foundValues m' (nodup_foundValues happart) hf hdependent
      (hsize ▸ happart.exist _ hregistered)
  · refine Or.inl fun m' => recordValues_get_same _ m' fun f hf htarget => ?_
    by_contra hdependent
    exact hfound ⟨f, hf, htarget, by simpa using hdependent⟩

end Found

namespace ChangesValues

theorem refl (m : Model) : ChangesValues m m := ⟨rfl, rfl, fun _ => Or.inl rfl⟩

/-- Whether it succeeds or fails, a calculation changes values only. -/
theorem calculate {m : Model} (happart : m.RegisteredApart) : ChangesValues m (calculate.after m) := by
  have hupdates := Updates.recordValues m.foundValues m.withoutValues
  rw [(calculate_after_eq m).1]
  refine ⟨?_, hupdates.size, fun v => ?_⟩
  · rw [hupdates.rest]
    rfl
  · rcases recordValues_foundValues_get happart v with hsame | ⟨hv, value, hrecorded⟩
    · exact Or.inl (hsame m.withoutValues)
    · obtain ⟨id, hget⟩ := hrecorded m.withoutValues rfl
      exact Or.inr ⟨hv.1, hv.2, id, value, hget⟩

theorem evaluate {m : Model} (happart : m.RegisteredApart) (e : Expr) :
    ChangesValues m ((Model.evaluate e).after m) := by
  rw [evaluate_after]
  split
  · exact .refl m
  · exact .calculate happart

end ChangesValues

section Again

variable {m : Model}

/-- A second calculation puts the table of the first one in place, and marks it as the first one did. -/
theorem parameters_calculate_again (m : Model) :
    (calculate.after (calculate.after m)).parameters = (calculate.after m).parameters ∧
    (calculate.after (calculate.after m)).parametersValid = (calculate.after m).parametersValid := by
  rw [(calculate_after_eq (calculate.after m)).1, solve_calculate_after]
  rw [(calculate_after_eq m).1]
  exact ⟨rfl, rfl⟩

/-- It records the same values in the same variables. -/
theorem renewed_calculate_again (happart : m.RegisteredApart) (v : VarId) :
    Variable.Renewed ((calculate.after m).store.get v)
      ((calculate.after (calculate.after m)).store.get v) := by
  have honce : (calculate.after m).store = (m.withoutValues.recordValues m.foundValues).store := by
    rw [(calculate_after_eq m).1]
  have htwice : (calculate.after (calculate.after m)).store =
      ((calculate.after m).withoutValues.recordValues m.foundValues).store := by
    rw [(calculate_after_eq (calculate.after m)).1, foundValues_calculate_after]
  rw [htwice]
  rcases recordValues_foundValues_get happart v with hsame | ⟨-, value, hrecorded⟩
  · rw [hsame]
    exact .same _
  · obtain ⟨i, hi⟩ := hrecorded m.withoutValues rfl
    obtain ⟨j, hj⟩ := hrecorded (calculate.after m).withoutValues (ChangesValues.calculate happart).size
    rw [hj]
    refine .again _ i j value ?_
    rw [honce, hi]
    exact Std.TreeMap.getElem?_insert_self

end Again

/-- A calculation directly after another has the same result, whether that is a success or an error. It
    leaves the same table, and every variable as the first one left it. Neither a calculation nor the
    evaluation of an expression changes anything but the table, its validity and the values recorded in
    dependent parameters. -/
theorem Reachable.calculate_again {allowed : Model → Operation → Prop} {m : Model}
    (h : m.Reachable allowed) :
    calculate.answer (calculate.after m) = calculate.answer m ∧
    (calculate.after (calculate.after m)).parameters = (calculate.after m).parameters ∧
    (calculate.after (calculate.after m)).parametersValid = (calculate.after m).parametersValid ∧
    (∀ v, Variable.Renewed ((calculate.after m).store.get v)
      ((calculate.after (calculate.after m)).store.get v)) ∧
    ChangesValues m (calculate.after m) ∧
    ChangesValues (calculate.after m) (calculate.after (calculate.after m)) ∧
    ∀ e, ChangesValues m ((evaluate e).after m) := by
  have happart := h.registeredApart
  have hkept : (calculate.after m).RegisteredApart := happart.of_keeps (.calculate m)
  obtain ⟨hparameters, hvalid⟩ := parameters_calculate_again m
  refine ⟨?_, hparameters, hvalid, renewed_calculate_again happart, .calculate happart,
    .calculate hkept, fun e => .evaluate happart e⟩
  rw [(calculate_after_eq (calculate.after m)).2, solve_calculate_after, (calculate_after_eq m).2]

/-- The calculation that fails for want of `x` fails again. There is no table then either, and the value of
    `q`, which the first one has recorded, is recorded again. -/
theorem calculate_again_open :
    (openParameterModel.Reachable fun _ _ => True) ∧
    calculate.answer (calculate.after openParameterModel) =
      .error (.unresolved "x" (Expr.symbol 5 "x").print) ∧
    (calculate.after (calculate.after openParameterModel)).parametersValid = false ∧
    Variable.Renewed ((calculate.after openParameterModel).store.get ⟨1⟩)
      ((calculate.after (calculate.after openParameterModel)).store.get ⟨1⟩) ∧
    ChangesValues openParameterModel ((evaluate (.symbol 5 "x")).after openParameterModel) := by
  have hrun := calculate_run_openParameterModel
  obtain ⟨hanswer, -, hvalid, hrenewed, -, -, hevaluate⟩ :=
    Reachable.calculate_again openParameterModel_reachable
  refine ⟨openParameterModel_reachable, ?_, ?_, hrenewed ⟨1⟩, hevaluate (.symbol 5 "x")⟩
  · rw [hanswer, Action.answer, hrun]
  · rw [hvalid, Action.after, hrun, (Updates.recordValues openFound _).rest]
    rfl

end Model

end FlatDae
