/-
Module: FlatDae.Proofs.Calculation
Purpose: The calculation of the parameters as a function. `Model.solve` finds the values without
  changing anything; a calculation answers what it finds, and records it in the model. An evaluation
  is a calculation, if the values are not valid, and a look at the values.
Main exports: Model.solve, Model.recordValues, Model.foundValues, Model.calculate_run,
  Model.evaluate_run, Model.evaluate_answer_of_valid
-/
import FlatDae.Proofs.ModelRuns

namespace FlatDae

namespace Model

/-! ### Calculations -/

/-- The values found so far with that of one more definition. -/
def extendTable (m : Model) (table : ParameterTable) (d : Definition) :
    Except ModelError ParameterTable := do
  let value ← (m.environment table).evaluate d.value
  return table.push d.symbol value

/-- The values of all numeric constants and parameters. -/
def solve (m : Model) : Except ModelError ParameterTable := do
  let definitions ← m.definitions
  let order ← definitionOrder definitions
  order.foldlM m.extendTable {}

/-- The model in which the value found for a definition is recorded, if it is that of a dependent
    parameter. -/
def recordValue (m : Model) (found : Definition × Float) : Model :=
  if found.1.dependent then
    let (node, m) := m.fresh (Fresh.constant found.2)
    m.modifyVariable found.1.target
      (·.withAttribute Variable.evaluatedBindingAttribute (.expr node))
  else m

/-- The model in which values found for definitions are recorded one after the other. -/
def recordValues (m : Model) (found : List (Definition × Float)) : Model :=
  found.foldl recordValue m

/-- Recording a value leaves the functions alone. -/
theorem recordValue_functions (m : Model) (found : Definition × Float) :
    (m.recordValue found).functions = m.functions := by
  unfold recordValue
  split <;> rfl

/-- Recording values leaves alone what values are found over. -/
theorem recordValue_environment (m : Model) (found : Definition × Float) :
    (m.recordValue found).environment = m.environment := by
  funext table
  rw [environment, recordValue_functions, environment]

theorem recordValues_environment (found : List (Definition × Float)) (m : Model) :
    (m.recordValues found).environment = m.environment := by
  induction found generalizing m with
  | nil => rfl
  | cons f found ih => rw [recordValues, List.foldl_cons, ← recordValues, ih, recordValue_environment]

/-- Calculating one definition evaluates it and records the value. -/
theorem calculateDefinition_run (m : Model) (table : ParameterTable) (d : Definition) :
    (calculateDefinition table d).run m =
      match (m.environment table).evaluate d.value with
      | .ok value => .ok (table.push d.symbol value) (m.recordValue (d, value))
      | .error error => .error error m := by
  unfold calculateDefinition
  simp only [EStateM.run_bind, EStateM.run_get, Action.run_ofExcept]
  cases (m.environment table).evaluate d.value with
  | error error => rfl
  | ok value =>
      by_cases hdependent : d.dependent
      · simp only [recordValue, hdependent, if_true]
        rfl
      · simp only [recordValue, hdependent]
        rfl

/-- The values of definitions over those found before, up to the first definition that has none. -/
def valuesFound (environment : ParameterTable → Environment) :
    ParameterTable → List Definition → List (Definition × Float)
  | _, [] => []
  | table, d :: ds =>
    match (environment table).evaluate d.value with
    | .error _ => []
    | .ok value => (d, value) :: valuesFound environment (table.push d.symbol value) ds

/-- Values are found in the order of the definitions. -/
theorem valuesFound_prefix (environment : ParameterTable → Environment) (table : ParameterTable)
    (ds : List Definition) : (valuesFound environment table ds).map Prod.fst <+: ds := by
  induction ds generalizing table with
  | nil => exact List.nil_prefix
  | cons d ds ih =>
      rw [valuesFound]
      cases (environment table).evaluate d.value with
      | error error => exact List.nil_prefix
      | ok value => simpa using ih (table.push d.symbol value)

/-- Calculating definitions one after the other finds what extending the table finds, and records the
    values found up to the first that has none. The induction is on the definitions still to come. -/
theorem calculateDefinitions_run (ds : List Definition) (m : Model) (table : ParameterTable) :
    match ds.foldlM m.extendTable table with
    | .ok table' =>
      (valuesFound m.environment table ds).map Prod.fst = ds ∧
      table'.rows =
        table.rows ++ ((valuesFound m.environment table ds).map fun f => (f.1.symbol, f.2)).toArray ∧
      (ds.foldlM calculateDefinition table).run m =
        .ok table' (m.recordValues (valuesFound m.environment table ds))
    | .error error =>
      (ds.foldlM calculateDefinition table).run m =
        .error error (m.recordValues (valuesFound m.environment table ds)) := by
  induction ds generalizing m table with
  | nil => exact ⟨rfl, by simp [valuesFound], rfl⟩
  | cons d ds ih =>
      simp only [List.foldlM_cons, EStateM.run_bind, calculateDefinition_run, extendTable, valuesFound]
      cases hvalue : (m.environment table).evaluate d.value with
      | error error => rfl
      | ok value =>
          have hextend : (m.recordValue (d, value)).extendTable = m.extendTable := by
            funext table d
            simp only [extendTable, recordValue_environment]
          have houtcome := ih (m.recordValue (d, value)) (table.push d.symbol value)
          rw [hextend, recordValue_environment] at houtcome
          simp only [bind, Except.bind, pure, Except.pure] at houtcome ⊢
          cases hfold : List.foldlM m.extendTable (table.push d.symbol value) ds with
          | error error =>
              rw [hfold] at houtcome
              exact houtcome
          | ok table' =>
              rw [hfold] at houtcome
              obtain ⟨hall, hrows, hrun⟩ := houtcome
              refine ⟨by simp [hall], ?_, hrun⟩
              rw [hrows]
              simp [ParameterTable.push]

/-- The model at the start of a calculation. -/
def withoutValues (m : Model) : Model := { m with parameters := {}, parametersValid := false }

/-- A calculation sorts the definitions and evaluates them in their order. -/
theorem calculate_run_eq (m : Model) :
    calculate.run m =
      match m.definitions with
      | .error error => .error error m.withoutValues
      | .ok definitions =>
        match definitionOrder definitions with
        | .error error => .error error m.withoutValues
        | .ok order =>
          match (order.foldlM calculateDefinition {}).run m.withoutValues with
          | .error error m' => .error error m'
          | .ok table m' => .ok () { m' with parameters := table, parametersValid := true } := by
  unfold calculate
  simp only [EStateM.run_bind, EStateM.run_modify, EStateM.run_get, Action.run_ofExcept]
  rw [← withoutValues, show m.withoutValues.definitions = m.definitions from rfl]
  cases m.definitions with
  | error error => rfl
  | ok definitions =>
      simp only
      cases definitionOrder definitions with
      | error error => rfl
      | ok order =>
          simp only
          cases (order.foldlM calculateDefinition {}).run m.withoutValues <;> rfl

/-- The values that a calculation finds, in their order, up to the first that it does not. There are none
    if it fails before it evaluates anything. -/
def foundValues (m : Model) : List (Definition × Float) :=
  match m.definitions.bind definitionOrder with
  | .error _ => []
  | .ok order => valuesFound m.environment {} order

/-- A calculation that succeeds has the table that `solve` finds and has recorded all its values; one
    that fails fails as `solve` does, has no table, and has recorded the values found before. -/
theorem calculate_run (m : Model) :
    match m.solve with
    | .ok table =>
      (∃ definitions, m.definitions = .ok definitions ∧
        definitionOrder definitions = .ok (m.foundValues.map Prod.fst)) ∧
      table.rows = (m.foundValues.map fun f => (f.1.symbol, f.2)).toArray ∧
      calculate.run m = .ok ()
        { m.withoutValues.recordValues m.foundValues with parameters := table, parametersValid := true }
    | .error error => calculate.run m = .error error (m.withoutValues.recordValues m.foundValues) := by
  unfold solve foundValues
  rw [calculate_run_eq]
  cases hdefinitions : m.definitions with
  | error error => rfl
  | ok definitions =>
      simp only [bind, Except.bind]
      cases horder : definitionOrder definitions with
      | error error => rfl
      | ok order =>
          have houtcome := calculateDefinitions_run order m.withoutValues {}
          have hextend : m.withoutValues.extendTable = m.extendTable := rfl
          have henvironment : m.withoutValues.environment = m.environment := rfl
          rw [hextend, henvironment] at houtcome
          simp only
          cases hfold : order.foldlM m.extendTable {} with
          | error error =>
              rw [hfold] at houtcome
              simp only [houtcome]
          | ok table =>
              rw [hfold] at houtcome
              obtain ⟨hall, hrows, hfoundRun⟩ := houtcome
              refine ⟨⟨definitions, rfl, by rw [hall, horder]⟩, by simpa using hrows, ?_⟩
              simp only [hfoundRun]

/-- An evaluation looks at the values of the model, after a calculation if they are not valid. -/
theorem evaluate_run (m : Model) (e : Expr) :
    (evaluate e).run m =
      if m.parametersValid then
        match (m.environment m.parameters).evaluate e with
        | .ok value => .ok value m
        | .error error => .error error m
      else
        match calculate.run m with
        | .error error m' => .error error m'
        | .ok () m' =>
          match (m'.environment m'.parameters).evaluate e with
          | .ok value => .ok value m'
          | .error error => .error error m' := by
  unfold evaluate
  simp only [EStateM.run_bind, EStateM.run_get]
  by_cases hvalid : m.parametersValid
  · simp only [hvalid, Bool.not_true, Bool.false_eq_true, if_false, if_true, EStateM.run_bind,
      EStateM.run_get, Action.run_ofExcept]
    cases (m.environment m.parameters).evaluate e <;> rfl
  · simp only [hvalid, Bool.not_false, Bool.false_eq_true, if_false, if_true, EStateM.run_bind]
    cases calculate.run m with
    | error error m' => rfl
    | ok a m' =>
        simp only [EStateM.run_get, Action.run_ofExcept]
        cases (m'.environment m'.parameters).evaluate e <;> rfl

/-- Values that are valid are looked at as they are. -/
theorem evaluate_answer_of_valid {m : Model} (hvalid : m.parametersValid = true) (e : Expr) :
    (evaluate e).answer m = (m.environment m.parameters).evaluate e := by
  unfold Action.answer
  rw [evaluate_run, if_pos hvalid]
  cases (m.environment m.parameters).evaluate e <;> rfl

end Model

end FlatDae
