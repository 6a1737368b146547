/-
Module: FlatDae.Proofs.OutdatedValues
Purpose: Values that attributes set by hand leave behind. Values that are marked valid are those of the
  last calculation. Registering a variable and putting a function in place mark them invalid, but setting
  an attribute does not; so what is set after a calculation has no part in evaluations, until there is
  another calculation.
Main exports: Operation.SetsAttribute, Model.KeepsTable, Operation.run_table, Model.CalculatedIn,
  Model.Reachable.calculatedIn, Model.Reachable.evaluate_answer_outdated
-/
import FlatDae.Proofs.CurrentValues
import FlatDae.Proofs.DependencyOrder
import FlatDae.Proofs.EvaluatorAgreement

namespace FlatDae

/-- Whether the operation sets an attribute of a registered variable. -/
def Operation.SetsAttribute (m : Model) : Operation → Prop
  | .setAttribute v _ _ => v ∈ m.registered
  | _ => False

namespace Model

/-! ### The table along a run -/

/-- The variables that have values, the functions and the values found stay, and so does the mark. -/
structure KeepsTable (m m' : Model) : Prop where
  registered : m'.registered = m.registered
  functions : m'.functions = m.functions
  parameters : m'.parameters = m.parameters
  parametersValid : m'.parametersValid = m.parametersValid

namespace KeepsTable

theorem refl (m : Model) : KeepsTable m m := ⟨rfl, rfl, rfl, rfl⟩

theorem trans {m m' m'' : Model} (h : KeepsTable m m') (h' : KeepsTable m' m'') : KeepsTable m m'' :=
  ⟨h'.registered.trans h.registered, h'.functions.trans h.functions,
    h'.parameters.trans h.parameters, h'.parametersValid.trans h.parametersValid⟩

theorem of_keepsValues {m m' : Model} (h : KeepsValues m m') : KeepsTable m m' :=
  ⟨h.registered, h.functions, h.parameters, h.parametersValid⟩

/-- With the same table, marked valid, expressions have the same values. -/
theorem answer_evaluate {m m' : Model} (h : KeepsTable m m') (hvalid : m.parametersValid = true)
    (e : Expr) : (evaluate e).answer m' = (m.environment m.parameters).evaluate e := by
  unfold Action.answer
  rw [evaluate_run, if_pos (h.parametersValid.trans hvalid), h.parameters, environment, h.functions,
    ← environment]
  cases (m.environment m.parameters).evaluate e <;> rfl

end KeepsTable

/-- The model has the values that its definitions had in `base`, with the variables and functions that
    it has itself. -/
structure CalculatedIn (base m : Model) : Prop where
  registered : m.registered = base.registered
  functions : m.functions = base.functions
  solve : base.solve = .ok m.parameters

/-- A calculation leaves no values that are marked valid, or those that the definitions have. -/
theorem calculate_table (m : Model) :
    (calculate.after m).parametersValid = false ∨ CalculatedIn m (calculate.after m) := by
  have hvalues := KeepsValues.of_updates (.recordValues m.foundValues m.withoutValues)
  rw [(calculate_after_eq m).1]
  cases hsolve : m.solve with
  | error error => exact Or.inl rfl
  | ok table => exact Or.inr ⟨hvalues.registered, hvalues.functions, hsolve⟩

end Model

open Model in
/-- Every operation keeps the table, marks it invalid, or fills it with the values that the definitions
    have. -/
theorem Operation.run_table (m : Model) (op : Operation) :
    KeepsTable m (op.run m) ∨ (op.run m).parametersValid = false ∨ CalculatedIn m (op.run m) := by
  have heffect := op.effect m
  generalize op.run m = m' at heffect ⊢
  cases heffect with
  | register v classification type types hfree hclassify hassign => exact Or.inr (Or.inl rfl)
  | addInitialEquation eq => exact Or.inl (.of_keepsValues (.addInitialEquation m eq))
  | addDaeEquation eq => exact Or.inl (.of_keepsValues (.addDaeEquation m eq))
  | setFunction f => exact Or.inr (Or.inl rfl)
  | resolveLinks => exact Or.inl (.of_keepsValues (.of_updates (.resolveLinks m)))
  | calculate op => exact Or.inr (calculate_table m)
  | _ => exact Or.inl ⟨rfl, rfl, rfl, rfl⟩

namespace Model

variable {allowed : Model → Operation → Prop} {m changed : Model}

/-- Values that are marked valid were calculated in some model that the run came through, and since then
    no variable was registered and no function put in place. -/
theorem Reachable.calculatedIn (h : m.Reachable allowed) (hvalid : m.parametersValid = true) :
    ∃ base, base.Reachable allowed ∧ base.Runs allowed m ∧ CalculatedIn base m := by
  induction h with
  | start => cases hvalid
  | @step m op hreached hop hallowed ih =>
      rcases op.run_table m with hkeeps | hinvalid | hcalculated
      · -- the table is the same, and so is the model that it was calculated in
        obtain ⟨base, hbase, hruns, hregistered, hfunctions, hsolve⟩ :=
          ih (hkeeps.parametersValid.symm.trans hvalid)
        exact ⟨base, hbase, .step op hruns hop hallowed, hkeeps.registered.trans hregistered,
          hkeeps.functions.trans hfunctions, hkeeps.parameters ▸ hsolve⟩
      · rw [hinvalid] at hvalid
        cases hvalid
      · exact ⟨m, hreached, .step op .start hop hallowed, hcalculated⟩

/-- Setting attributes never touches the table. -/
theorem Runs.keepsTable (h : m.Runs (fun m op => op.SetsAttribute m) changed) :
    KeepsTable m changed := by
  induction h with
  | start => exact .refl m
  | step op _ _ hsets ih =>
      cases op with
      | setAttribute v name value => exact ih.trans ⟨rfl, rfl, rfl, rfl⟩
      | _ => cases hsets

/-- A calculation on the spot makes an evaluation answer what the definitions and functions give, with
    all attributes as they are set. Without one, an evaluation after attributes of registered variables
    were set answers the same if the values were not marked valid, or are still those of the definitions.
    But if they were marked valid it answers what it answered before, which is what was right in some
    earlier model, and neither the variables nor the functions are others since then. -/
theorem Reachable.evaluate_answer_outdated (h : m.Reachable allowed)
    (hchanges : m.Runs (fun m op => op.SetsAttribute m) changed) :
    (∀ e, (evaluate e).answer (calculate.after changed) =
      changed.solve.bind fun table => (changed.environment table).evaluate e) ∧
    (m.parametersValid = false ∨ changed.solve = .ok m.parameters →
      ∀ e, (evaluate e).answer changed = (evaluate e).answer (calculate.after changed)) ∧
    (m.parametersValid = true → ∃ base, base.Reachable allowed ∧ base.Runs allowed m ∧
      m.registered = base.registered ∧ m.functions = base.functions ∧
      ∀ e, (evaluate e).answer changed = (evaluate e).answer m ∧
        (evaluate e).answer changed = (evaluate e).answer (calculate.after base)) := by
  have hkeeps := hchanges.keepsTable
  refine ⟨evaluate_answer_calculate_after changed, fun hright e => ?_, fun hvalid => ?_⟩
  · have hcurrent : changed.Current := by
      intro hvalid
      rw [hkeeps.parametersValid] at hvalid
      rw [hkeeps.parameters]
      exact hright.resolve_left (by simp [hvalid])
    rw [evaluate_answer hcurrent, evaluate_answer_calculate_after]
  · obtain ⟨base, hbase, hruns, hcalculated⟩ := h.calculatedIn hvalid
    refine ⟨base, hbase, hruns, hcalculated.registered, hcalculated.functions, fun e => ?_⟩
    rw [hkeeps.answer_evaluate hvalid, evaluate_answer_of_valid hvalid,
      evaluate_answer_calculate_after, hcalculated.solve, environment, hcalculated.functions]
    exact ⟨rfl, rfl⟩

/-! ### One parameter, bound to a number -/

/-- A number is its own value. -/
theorem evaluate_constant (call : CallSemantics) (id : NodeId) (c : Float) :
    (⟨{}, call⟩ : Environment).evaluate (.constant id c) = .ok c := by
  rw [Environment.evaluate_leaf _ rfl]
  rfl

/-- A definition by a number, on its own, comes first in order. -/
theorem definitionOrder_constant {d : Definition} {id : NodeId} {c : Float}
    (hvalue : d.value = .constant id c) : definitionOrder #[d] = .ok [d] := by
  have hreferences : references #[d] = #[[]] := by
    simp [references, hvalue]
  rw [definitionOrder, hreferences, dependencyOrder_of_backward]
  · rfl
  · rintro i j ⟨hj, -⟩
    cases i with
    | zero => cases hj
    | succ i => cases hj

/-- The parameter `p`, defined by an expression. -/
def parameterDefinition (value : Expr) : Definition :=
  { target := ⟨0⟩, name := "p", symbol := .symbol 1 "p", value, dependent := false }

/-- If all there is to calculate is a parameter bound to a number, the number is the value. -/
theorem calculate_run_constant {m : Model} {id : NodeId} {c : Float}
    (hregistered : m.registered = #[⟨0⟩])
    (hdefinition : m.definition? ⟨0⟩ = .ok (some (parameterDefinition (.constant id c)))) :
    calculate.run m =
      .ok () { m with parameters := ⟨#[(.symbol 1 "p", c)]⟩, parametersValid := true } := by
  have hdefinitions : m.definitions = .ok #[parameterDefinition (.constant id c)] := by
    simp [definitions, hregistered, hdefinition]
  have horder : definitionOrder #[parameterDefinition (.constant id c)] =
      .ok [parameterDefinition (.constant id c)] := definitionOrder_constant rfl
  have hfound : (m.withoutValues.environment {}).evaluate (parameterDefinition (.constant id c)).value =
      .ok c := evaluate_constant _ id c
  rw [calculate_run_eq, hdefinitions]
  simp only [horder, List.foldlM_cons, List.foldlM_nil, EStateM.run_bind, calculateDefinition_run, hfound]
  rfl

/-- The parameter `p = 1`. -/
def boundParameter : Variable :=
  { symbol := .symbol 1 "p"
    name := "p"
    name_eq := (Expr.print_symbol 1 "p").symm
    domain := .real
    causality := .internal
    variability := .parameter
    attributes := (∅ : Attributes).insert Variable.bindingAttribute (.expr (.constant 2 1.0)) }

/-- A model with the parameter `p = 1`. -/
def boundParameterModel : Model :=
  [.create boundParameter, .addVariable ⟨0⟩].foldl Operation.run {}

/-- Asked for `p`, it calculates its value. -/
def evaluatedParameterModel : Model := Operation.run boundParameterModel (.evaluate (.symbol 1 "p"))

/-- Then `p` is bound to 2. -/
def reboundParameterModel : Model :=
  Operation.run evaluatedParameterModel
    (.setAttribute ⟨0⟩ Variable.bindingAttribute (.expr (.constant 3 2.0)))

theorem boundParameterModel_get : boundParameterModel.store.get ⟨0⟩ =
    { boundParameter with
      declaredType := some (.builtin .real), kind := some (.independentParameter .real) } := by
  have hindependent : isDependent boundParameter = false := by
    have hbinding : boundParameter.binding? = some (.constant 2 1.0) := rfl
    rw [isDependent, hbinding]
    simp
  have hcell : boundParameterModel.store.get ⟨0⟩ =
      { boundParameter with
        declaredType := some (.builtin .real)
        kind := some (.parameter .real (isDependent boundParameter)) } := rfl
  rw [hcell, hindependent]
  rfl

theorem evaluatedParameterModel_eq : evaluatedParameterModel =
    { boundParameterModel with parameters := ⟨#[(.symbol 1 "p", 1.0)]⟩, parametersValid := true } := by
  have hd : boundParameterModel.definition? ⟨0⟩ = .ok (some (parameterDefinition (.constant 2 1.0))) := by
    rw [definition?, boundParameterModel_get]
    rfl
  have hrun := calculate_run_constant rfl hd
  change (evaluate (.symbol 1 "p")).after boundParameterModel = _
  rw [evaluate_after, if_neg (by decide), Action.after, hrun]

theorem reboundParameterModel_definition? : reboundParameterModel.definition? ⟨0⟩ =
    .ok (some (parameterDefinition (.constant 3 2.0))) := by
  rw [reboundParameterModel, evaluatedParameterModel_eq]
  change ((boundParameterModel.store.modify ⟨0⟩ _).get ⟨0⟩).definition? ⟨0⟩ = _
  rw [Variables.get_modify, if_pos ⟨rfl, by decide⟩, boundParameterModel_get]
  rfl

/-- Once it is tabled, the value of `p` is looked up. -/
theorem answer_tabled {m : Model} {c : Float} (hparameters : m.parameters = ⟨#[(.symbol 1 "p", c)]⟩)
    (hvalid : m.parametersValid = true) : (evaluate (.symbol 1 "p")).answer m = .ok c := by
  rw [evaluate_answer_of_valid hvalid, hparameters]
  rfl

theorem boundParameterModel_reachable : boundParameterModel.Reachable fun _ _ => True :=
  .step (.addVariable ⟨0⟩) (.step (.create boundParameter) .start rfl trivial) Nat.zero_lt_one trivial

theorem evaluatedParameterModel_reachable : evaluatedParameterModel.Reachable fun _ _ => True :=
  .step (.evaluate (.symbol 1 "p")) boundParameterModel_reachable trivial trivial

theorem reboundParameterModel_runs :
    evaluatedParameterModel.Runs (fun m op => op.SetsAttribute m) reboundParameterModel := by
  refine .step _ .start trivial ?_
  change (⟨0⟩ : VarId) ∈ evaluatedParameterModel.registered
  rw [evaluatedParameterModel_eq]
  exact Array.mem_singleton.2 rfl

/-- The evaluation still answers what `p` was in an earlier model. -/
theorem evaluate_answer_outdated_rebound :
    ∃ base, base.Runs (fun _ _ => True) evaluatedParameterModel ∧
      ∀ e, (evaluate e).answer reboundParameterModel = (evaluate e).answer (calculate.after base) := by
  have hvalid : evaluatedParameterModel.parametersValid = true := by rw [evaluatedParameterModel_eq]
  obtain ⟨base, -, hruns, -, -, hanswers⟩ :=
    (Reachable.evaluate_answer_outdated evaluatedParameterModel_reachable
      reboundParameterModel_runs).2.2 hvalid
  exact ⟨base, hruns, fun e => (hanswers e).2⟩

/-- With `p` bound to 2 after it was asked for, its value is still 1 until there is a calculation. -/
theorem evaluate_answer_rebound :
    (evaluatedParameterModel.Reachable fun _ _ => True) ∧
    evaluatedParameterModel.Runs (fun m op => op.SetsAttribute m) reboundParameterModel ∧
    (evaluate (.symbol 1 "p")).answer reboundParameterModel = .ok 1.0 ∧
    (evaluate (.symbol 1 "p")).answer (calculate.after reboundParameterModel) = .ok 2.0 ∧
    ¬ ∀ e, (evaluate e).answer reboundParameterModel =
      (evaluate e).answer (calculate.after reboundParameterModel) := by
  have hbefore : (evaluate (.symbol 1 "p")).answer reboundParameterModel = .ok 1.0 :=
    answer_tabled (by rw [reboundParameterModel, evaluatedParameterModel_eq]; rfl)
      (by rw [reboundParameterModel, evaluatedParameterModel_eq]; rfl)
  have hafter : (evaluate (.symbol 1 "p")).answer (calculate.after reboundParameterModel) = .ok 2.0 := by
    have hregistered : reboundParameterModel.registered = #[⟨0⟩] := by
      rw [reboundParameterModel, evaluatedParameterModel_eq]
      rfl
    have hrun := calculate_run_constant hregistered reboundParameterModel_definition?
    exact answer_tabled (by rw [Action.after, hrun]) (by rw [Action.after, hrun])
  refine ⟨evaluatedParameterModel_reachable, reboundParameterModel_runs, hbefore, hafter, fun hsame => ?_⟩
  have hvalues := hsame (.symbol 1 "p")
  rw [hbefore, hafter] at hvalues
  have hne : (1.0 : Float) ≠ 2.0 := by decide
  exact hne (Except.ok.inj hvalues)

end Model

end FlatDae
