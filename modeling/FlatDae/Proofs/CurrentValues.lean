/-
Module: FlatDae.Proofs.CurrentValues
Purpose: Values are never out of date. As long as the values of a model are marked valid they are what
  `Model.solve` finds in it, whatever operations came before, failed calculations among them. So an
  evaluation answers what it would answer after a calculation on the spot.
Main exports: Model.Current, Operation.run_current, Model.evaluate_answer,
  Model.evaluate_answer_calculated
-/
import FlatDae.Proofs.RunInvariants

namespace FlatDae

namespace Model

/-- The values of the model, if they are marked valid, are those that its definitions have. -/
def Current (m : Model) : Prop := m.parametersValid = true → m.solve = .ok m.parameters

/-- What keeps the values and what defines them keeps them current. -/
theorem Current.of_keepsValues {m m' : Model} (h : m.Current) (hkeeps : KeepsValues m m') :
    m'.Current := by
  intro hvalid
  rw [hkeeps.parametersValid] at hvalid
  rw [hkeeps.solve_eq, hkeeps.parameters]
  exact h hvalid

theorem current_of_invalid {m : Model} (h : m.parametersValid = false) : m.Current := by
  intro hvalid
  rw [h] at hvalid
  cases hvalid

/-- A calculation keeps what defines the values. -/
theorem solve_calculate_after (m : Model) : (calculate.after m).solve = m.solve := by
  rw [(calculate_after_eq m).1]
  exact (KeepsValues.of_updates (.recordValues m.foundValues m.withoutValues)).solve_eq

/-- A calculation leaves the functions alone. -/
theorem calculate_after_functions (m : Model) : (calculate.after m).functions = m.functions := by
  rw [(calculate_after_eq m).1]
  exact (KeepsValues.of_updates (.recordValues m.foundValues m.withoutValues)).functions

/-- After a calculation, also one that failed, the values are current. -/
theorem current_calculate_after (m : Model) : (calculate.after m).Current := by
  intro hvalid
  rw [solve_calculate_after]
  rw [(calculate_after_eq m).1] at hvalid ⊢
  cases hsolve : m.solve with
  | error error => simp [hsolve, Except.toOption] at hvalid
  | ok table => rfl

end Model

namespace Operation

open Model

/-- Every operation keeps the values current, if it changes no attribute and no type of a registered
    variable by hand. -/
theorem run_current {m : Model} (happart : m.RegisteredApart) (hcurrent : m.Current) {op : Operation}
    (hhand : ¬ op.ChangesByHand m) : (op.run m).Current := by
  have heffect := op.effect m
  generalize op.run m = m' at heffect ⊢
  cases heffect with
  | nothing op => exact hcurrent
  | makeNodes supply => exact hcurrent
  | create new => exact hcurrent.of_keepsValues (.create m new happart.exist)
  | setDeclaredType v type =>
      exact hcurrent.of_keepsValues (.modify_unregistered m (fun _ => ⟨rfl, rfl, rfl, rfl⟩) hhand)
  | setAttribute v name value =>
      exact hcurrent.of_keepsValues (.modify_unregistered m (fun _ => ⟨rfl, rfl, rfl, rfl⟩) hhand)
  | setDerivative v derivative =>
      exact hcurrent.of_keepsValues
        (.modify m v (fun _ => ⟨rfl, rfl, rfl, rfl⟩) fun _ _ => rfl)
  | setDifferentiated v differentiated =>
      exact hcurrent.of_keepsValues
        (.modify m v (fun _ => ⟨rfl, rfl, rfl, rfl⟩) fun _ _ => rfl)
  | setAlias v target negated =>
      exact hcurrent.of_keepsValues
        (.modify m v (fun _ => ⟨rfl, rfl, rfl, rfl⟩) fun _ _ => rfl)
  | register v classification type types hfree hclassify hassign => exact current_of_invalid rfl
  | addInitialEquation eq => exact hcurrent.of_keepsValues (.addInitialEquation m eq)
  | addDaeEquation eq => exact hcurrent.of_keepsValues (.addDaeEquation m eq)
  | addType type types hadd => exact hcurrent
  | setFunction f => exact current_of_invalid rfl
  | setTime symbol => exact hcurrent
  | resolveLinks => exact hcurrent.of_keepsValues (.of_updates (.resolveLinks m))
  | calculate op => exact current_calculate_after m

end Operation

namespace Model

/-- The values of a model are current after every run without changes by hand. -/
theorem Reachable.current {m : Model}
    (h : m.Reachable fun m op => ¬ op.ChangesByHand m) : m.Current := by
  induction h with
  | start => exact current_of_invalid rfl
  | step op hreached _ hhand ih =>
      exact op.run_current (Runs.registeredApart registeredApart_empty hreached) ih hhand

/-- Where the values are current, an evaluation answers what the definitions and functions of the model
    make of the expression. -/
theorem evaluate_answer {m : Model} (hcurrent : m.Current) (e : Expr) :
    (evaluate e).answer m = m.solve.bind fun table => (m.environment table).evaluate e := by
  by_cases hvalid : m.parametersValid
  · rw [evaluate_answer_of_valid hvalid, hcurrent hvalid]
    rfl
  · rw [Action.answer, evaluate_run, if_neg hvalid]
    have houtcome := calculate_run m
    cases hsolve : m.solve with
    | error error =>
        rw [hsolve] at houtcome
        simp only [houtcome, Except.bind]
    | ok table =>
        rw [hsolve] at houtcome
        have hfunctions : (m.withoutValues.recordValues m.foundValues).functions = m.functions :=
          (KeepsValues.of_updates (.recordValues m.foundValues m.withoutValues)).functions
        simp only [houtcome.2.2, Except.bind, environment, hfunctions]
        cases ({ table, call := m.functions.call [] } : Environment).evaluate e <;> rfl

/-- Directly after a calculation an evaluation answers just that, whatever the values were before. -/
theorem evaluate_answer_calculate_after (m : Model) (e : Expr) :
    (evaluate e).answer (calculate.after m) =
      m.solve.bind fun table => (m.environment table).evaluate e := by
  rw [evaluate_answer (current_calculate_after m), solve_calculate_after]
  simp only [environment, calculate_after_functions]

/-- In every model that comes about by operations other than changes by hand, an evaluation gives the
    value or error that it would give directly after a calculation, whether that calculation succeeds
    or fails; and that is the value which the definitions and functions of the model give. -/
theorem evaluate_answer_calculated (m : Model)
    (h : m.Reachable fun m op => ¬ op.ChangesByHand m) (e : Expr) :
    (evaluate e).answer m = (evaluate e).answer (calculate.after m) ∧
    (evaluate e).answer m = m.solve.bind fun table => (m.environment table).evaluate e := by
  have hanswer := evaluate_answer h.current e
  exact ⟨hanswer.trans (evaluate_answer_calculate_after m e).symm, hanswer⟩

/-! ### A function put in place between evaluations -/

/-- The parameter `p = square(3)`. -/
def squaredParameter : Variable :=
  { symbol := .symbol 4 "p"
    domain := .real
    causality := .internal
    variability := .parameter
    attributes := (∅ : Attributes).insert Variable.bindingAttribute
      (.expr (.call 5 "square" [.constant 6 3.0] 0)) }

/-- A model with the parameter `p = square(3)`, whose evaluation fails before there is a function
    `square`. -/
def squaredParameterModel : Model :=
  Operation.run (Operation.run (Operation.run (Operation.run {} (.create squaredParameter))
    (.addVariable ⟨0⟩)) (.evaluate (.symbol 4 "p")))
    (.setFunction
      { name := "square"
        inputs := [.symbol 7 "a"]
        outputs := [.binary 8 .mul (.symbol 7 "a") (.symbol 7 "a")] })

theorem squaredParameterModel_reachable :
    squaredParameterModel.Reachable fun m op => ¬ op.ChangesByHand m := by
  refine .step _ (.step _ (.step _ (.step _ .start ?_ id) ?_ id) trivial id) trivial id
  · rfl
  · exact Nat.zero_lt_one

/-- The failed evaluation leaves nothing behind that a later one could answer. -/
theorem evaluate_answer_squaredParameter :
    (squaredParameterModel.Reachable fun m op => ¬ op.ChangesByHand m) ∧
    (evaluate (.symbol 4 "p")).answer squaredParameterModel =
      (evaluate (.symbol 4 "p")).answer (calculate.after squaredParameterModel) ∧
    (evaluate (.symbol 4 "p")).answer squaredParameterModel =
      squaredParameterModel.solve.bind fun table =>
        (squaredParameterModel.environment table).evaluate (.symbol 4 "p") :=
  ⟨squaredParameterModel_reachable,
    evaluate_answer_calculated _ squaredParameterModel_reachable _⟩

end Model

end FlatDae
