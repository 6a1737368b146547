/-
Module: FlatDae.Proofs.CallFailures
Purpose: Why expressions and calls have no value. A tree without value has a symbol in it that is not
  known, a derivative, a stack of other than one row, or a call without value. If every call is one of a
  function that there is, with as many arguments as the function has inputs and for an output that it
  has, then a call fails only because it is one from inside itself or because of a derivative.
Main exports: TreeFailure, treeValue_failure, FunctionTable.Fits, FunctionTable.Closed,
  FunctionTable.CallFailure, FunctionTable.callInside_failure, Environment.evaluate_failure
-/
import FlatDae.Proofs.CallNesting

namespace FlatDae

open FlatDae.Expr (Graph)

/-! ### Trees -/

/-- Why the tree `e`, evaluated as part of `whole`, has no value. -/
inductive TreeFailure (known : Expr → Option Float) (call : CallSemantics) (whole e : Expr) :
    ModelError → Prop where
  | symbol {id : NodeId} {name : String} (hin : Expr.Within (.symbol id name) e)
      (hunknown : known (.symbol id name) = none) :
      TreeFailure known call whole e (.unresolved name whole.print)
  | derivative {id : NodeId} {child : Expr} (hin : Expr.Within (.der id child) e) :
      TreeFailure known call whole e (.nonNumeric ((Expr.der id child).printWith known))
  | stack {id : NodeId} {rows : List Expr} (hin : Expr.Within (.vertcat id rows) e) :
      TreeFailure known call whole e (.nonNumeric ((Expr.vertcat id rows).printWith known))
  | call {id : NodeId} {function : String} {args : List Expr} {output : Nat} {values : List Float}
      {error : ModelError} (hin : Expr.Within (.call id function args output) e)
      (hlength : values.length = args.length) (hcall : call function values output = .error error) :
      TreeFailure known call whole e error

section Trees

variable {known : Expr → Option Float} {call : CallSemantics} {whole e : Expr} {error : ModelError}

/-- A node fails as a child fails. -/
theorem TreeFailure.of_child {c : Expr} (hc : c ∈ e.children) (h : TreeFailure known call whole c error) :
    TreeFailure known call whole e error := by
  cases h with
  | symbol hin hunknown => exact .symbol (.deeper hc hin) hunknown
  | derivative hin => exact .derivative (.deeper hc hin)
  | stack hin => exact .stack (.deeper hc hin)
  | call hin hlength hcall => exact .call (.deeper hc hin) hlength hcall

/-- A tree without value has a symbol that is not known, a derivative, a stack or a call without value
    in it. -/
theorem treeValue_failure (h : treeValue known call whole e = .error error) :
    TreeFailure known call whole e error := by
  induction e using Expr.children_induction with
  | step e ih =>
      cases treeValue_eq_error h with
      | obstacle hknown hobstacle =>
          unfold knownObstacle? at hobstacle
          split at hobstacle <;> cases hobstacle
          · exact .symbol (.self _) hknown
          · exact .derivative (.self _)
          · exact .stack (.self _)
      | @child _ c _ _ _ _ _ hsplit _ hc =>
          have hmem : c ∈ e.children := by simp [hsplit]
          exact (ih c hmem hc).of_child hmem
      | call _ hvalues hcall => exact .call (.self _) hvalues.length_eq.symm hcall

end Trees

/-! ### Calls -/

namespace FunctionTable

/-- Whether a node is one that a value can be asked of: a call is one of a function that there is, with
    as many arguments as the function has inputs and for an output that the function has. -/
def Fits (table : FunctionTable) : Expr → Prop
  | .call _ function args output => ∃ f, table[function]? = some f ∧ args.length = f.inputs.length ∧
      output < f.outputs.length
  | .vertcat _ _ => False
  | _ => True

/-- The outputs of all functions are made of calls that fit and of no symbols but the inputs. -/
structure Closed (table : FunctionTable) (g : Graph) : Prop where
  drawn : table.DrawnFrom g
  inputs : ∀ (name : String) (f : ModelFunction), table[name]? = some f → (f.inputs.map Expr.id).Nodup
  fits : ∀ (name : String) (f : ModelFunction), table[name]? = some f → ∀ output ∈ f.outputs,
    ∀ n, Expr.Within n output → table.Fits n
  symbols : ∀ (name : String) (f : ModelFunction), table[name]? = some f → ∀ output ∈ f.outputs,
    ∀ n, Expr.Within n output → n.isSymbol = true → n ∈ f.inputs

/-- Why a call that fits has no value. -/
inductive CallFailure (table : FunctionTable) : ModelError → Prop where
  /-- A function is called from inside its own call. -/
  | recursiveCall {name : String} {f : ModelFunction} (hf : table[name]? = some f) :
      CallFailure table (.functionFault name .recursiveCall)
  /-- An output contains a derivative, which is shown with the arguments in it. -/
  | derivative {name : String} {f : ModelFunction} (hf : table[name]? = some f) {output : Expr}
      (houtput : output ∈ f.outputs) {id : NodeId} {child : Expr}
      (hin : Expr.Within (.der id child) output) (known : Expr → Option Float) :
      CallFailure table (.nonNumeric ((Expr.der id child).printWith known))

/-- The arguments are the values of the inputs. -/
theorem first?_args {inputs : List Expr} (hinputs : (inputs.map Expr.id).Nodup) {args : List Float}
    (hlength : args.length = inputs.length) :
    (ParameterTable.ofRows (inputs.zip args)).Distinct ∧
      ∀ input ∈ inputs, ∃ value, (ParameterTable.ofRows (inputs.zip args)).first? input = some value := by
  have hnodes : (ParameterTable.ofRows (inputs.zip args)).nodes = inputs := by
    simp [ParameterTable.nodes, ParameterTable.ofRows, List.map_fst_zip, hlength]
  have hdistinct : (ParameterTable.ofRows (inputs.zip args)).Distinct := by
    rw [ParameterTable.Distinct, hnodes]
    exact hinputs
  refine ⟨hdistinct, fun input hinput => ?_⟩
  rw [← hnodes] at hinput
  obtain ⟨row, hrow, rfl⟩ := List.mem_map.1 hinput
  exact ⟨row.2, ParameterTable.first?_of_mem hdistinct hrow⟩

/-- A call that fits fails only because a function is called from inside its own call or because of a
    derivative. The induction is on the number of functions that are not active. -/
theorem callInside_failure {functions : FunctionTable} {g : Graph} (hclosed : functions.Closed g)
    {active : List String} (hactive : functions.Active active) {name : String} {f : ModelFunction}
    (hf : functions[name]? = some f) {args : List Float} (hargs : args.length = f.inputs.length)
    {output : Nat} (houtput : output < f.outputs.length) {error : ModelError}
    (h : functions.callInside active name args output = .error error) :
    functions.CallFailure error := by
  induction hfree : functions.size - active.length using Nat.strongRecOn
    generalizing active name f args output error with
  | ind free ih =>
      cases callFails h with
      | recursiveCall => exact .recursiveCall hf
      | notInModel _ hmissing =>
          rw [hf] at hmissing
          cases hmissing
      | wrongArity _ hfound hwrong =>
          obtain rfl := Option.some.inj (hf.symm.trans hfound)
          exact absurd hargs hwrong
      | noOutput _ hfound _ _ hnone =>
          obtain rfl := Option.some.inj (hf.symm.trans hfound)
          exact absurd houtput (Nat.not_lt.2 hnone)
      | @inside _ before after o _ hinactive hfound _ houtputs _ hfailed =>
          obtain rfl := Option.some.inj (hf.symm.trans hfound)
          have ho : o ∈ f.outputs := by simp [houtputs]
          have hinside := hactive.cons hinactive hf
          have hlength := hinside.length_le
          rw [List.length_cons] at hlength
          obtain ⟨hdistinct, hvalue⟩ := first?_args (hclosed.inputs name f hf) hargs
          rw [Environment.evaluate_eq_treeEvaluate (hclosed.drawn name f hf o ho),
            Environment.treeEvaluate_of_distinct hdistinct] at hfailed
          cases treeValue_failure hfailed with
          | symbol hin hunknown =>
              obtain ⟨value, hknown⟩ := hvalue _ (hclosed.symbols name f hf o ho _ hin rfl)
              rw [insideCall, hknown] at hunknown
              cases hunknown
          | derivative hin => exact .derivative hf ho hin _
          | stack hin => exact (hclosed.fits name f hf o ho _ hin).elim
          | call hin hlength' hcall =>
              obtain ⟨f', hf', hargs', houtput'⟩ := hclosed.fits name f hf o ho _ hin
              exact ih _ (by rw [← hfree, List.length_cons]; omega) hinside hf' (hlength'.trans hargs')
                houtput' hcall rfl

end FunctionTable

/-- An expression of calls that fit has no value over a table only because of a symbol that is not in the
    table, because of a derivative, or because a function is called from inside its own call. -/
theorem Environment.evaluate_failure {functions : FunctionTable} {g : Graph} (hclosed : functions.Closed g)
    {table : ParameterTable} (htable : table.Distinct) {e : Expr} (he : e ∈ g)
    (hfits : ∀ n, Expr.Within n e → functions.Fits n) {error : ModelError}
    (h : ({ table, call := functions.call [] } : Environment).evaluate e = .error error) :
    (∃ id name, Expr.Within (.symbol id name) e ∧ table.first? (.symbol id name) = none ∧
      error = .unresolved name e.print) ∨
    (∃ id child, Expr.Within (.der id child) e ∧
      error = .nonNumeric ((Expr.der id child).printWith table.first?)) ∨
    functions.CallFailure error := by
  rw [evaluate_eq_treeEvaluate he, treeEvaluate_of_distinct htable] at h
  cases treeValue_failure h with
  | symbol hin hunknown => exact Or.inl ⟨_, _, hin, hunknown, rfl⟩
  | derivative hin => exact Or.inr (Or.inl ⟨_, _, hin, rfl⟩)
  | stack hin => exact (hfits _ hin).elim
  | call hin hlength hcall =>
      obtain ⟨f, hf, hargs, houtput⟩ := hfits _ hin
      exact Or.inr (Or.inr (FunctionTable.callInside_failure hclosed FunctionTable.active_nil hf
        (hlength.trans hargs) houtput hcall))

end FlatDae
