/-
Module: FlatDae.Proofs.ValueIndependence
Purpose: Whether an expression has a value depends on its shape and on which nodes are known, never on the
  numbers. Two evaluations over tables of the same nodes go side by side: they stop at the same nodes,
  enter the same functions with equally many arguments, and come to the same first obstacle, so that both
  have values or both fail for the same reason.
Main exports: ModelError.SameCause, Outcomes, SameOutcome, treeValue_sameOutcome,
  Environment.evaluate_sameOutcome, FunctionTable.callNested_sameOutcome,
  FunctionTable.evaluate_valueIndependent
-/
import FlatDae.Proofs.RecursiveCalls

namespace FlatDae

open FlatDae.Expr (Graph)

/-- Errors that are the same but for the text of a node that is not numeric, in which known values show. -/
inductive ModelError.SameCause : ModelError → ModelError → Prop where
  | same (error : ModelError) : SameCause error error
  | nonNumeric (text text' : String) : SameCause (.nonNumeric text) (.nonNumeric text')

/-- Both come to results, which are related, or both fail for the same reason. -/
inductive Outcomes {α : Type} (R : α → α → Prop) : Except ModelError α → Except ModelError α → Prop where
  | ok {a a' : α} (related : R a a') : Outcomes R (.ok a) (.ok a')
  | error {error error' : ModelError} (cause : error.SameCause error') :
      Outcomes R (.error error) (.error error')

/-- Both have values, whatever these are, or both fail for the same reason. -/
abbrev SameOutcome : Except ModelError Float → Except ModelError Float → Prop :=
  Outcomes fun _ _ => True

namespace Outcomes

variable {α β : Type} {R : α → α → Prop} {S : β → β → Prop}

/-- Computations go on side by side. -/
theorem bind {x x' : Except ModelError α} {f f' : α → Except ModelError β} (hx : Outcomes R x x')
    (hf : ∀ a a', R a a' → Outcomes S (f a) (f' a')) : Outcomes S (x.bind f) (x'.bind f') := by
  cases hx with
  | ok related => exact hf _ _ related
  | error cause => exact .error cause

/-- Lists are treated side by side. -/
theorem mapM {f f' : β → Except ModelError α} (bs : List β) (h : ∀ b ∈ bs, Outcomes R (f b) (f' b)) :
    Outcomes (List.Forall₂ R) (bs.mapM f) (bs.mapM f') := by
  induction bs with
  | nil => exact .ok .nil
  | cons b bs ih =>
      simp only [List.mapM_cons]
      apply bind (h b List.mem_cons_self)
      intro a a' hfirst
      apply bind (ih fun c hc => h c (List.mem_cons_of_mem b hc))
      intro as as' hrest
      exact .ok (.cons hfirst hrest)

/-- A fault of a function is the same on both sides. -/
theorem eq_of_functionFault {name : String} {fault : FunctionFault} {x : Except ModelError α}
    (h : Outcomes R (.error (.functionFault name fault)) x) : x = .error (.functionFault name fault) := by
  cases h with
  | error cause =>
      cases cause
      rfl

end Outcomes

/-! ### Trees -/

section Trees

variable {known known' : Expr → Option Float} {call call' : CallSemantics} {whole : Expr}

/-- What is an obstacle does not depend on the values that are known. -/
theorem knownObstacle?_sameCause (known known' : Expr → Option Float) (whole e : Expr) :
    (knownObstacle? known whole e = none ∧ knownObstacle? known' whole e = none) ∨
      ∃ error error', knownObstacle? known whole e = some error ∧
        knownObstacle? known' whole e = some error' ∧ error.SameCause error' := by
  match e with
  | .constant _ _ | .unary _ _ _ | .binary _ _ _ _ | .call _ _ _ _ | .vertcat _ [_] =>
      exact Or.inl ⟨rfl, rfl⟩
  | .symbol _ _ => exact Or.inr ⟨_, _, rfl, rfl, .same _⟩
  | .der _ _ | .vertcat _ [] | .vertcat _ (_ :: _ :: _) =>
      exact Or.inr ⟨_, _, rfl, rfl, .nonNumeric _ _⟩

/-- Calls of a function with equally many arguments have the same outcome. -/
def UniformCalls (call call' : CallSemantics) : Prop :=
  ∀ (function : String) (args args' : List Float) (output : Nat), args.length = args'.length →
    SameOutcome (call function args output) (call' function args' output)

/-- A node has the same outcome over equally many values of its children. -/
theorem Environment.combine_sameOutcome (env env' : Environment) (hcall : UniformCalls env.call env'.call)
    (e : Expr) {values values' : List Float} (hlength : values.length = values'.length) :
    SameOutcome (env.combine e values) (env'.combine e values') := by
  cases e with
  | call id function args output => exact hcall function values values' output hlength
  | constant => exact .ok trivial
  | symbol | der => exact .error (.same _)
  | unary | vertcat =>
      match values, values', hlength with
      | [_], [_], _ => exact .ok trivial
      | [], [], _ | _ :: _ :: _, _ :: _ :: _, _ => exact .error (.same _)
  | binary =>
      match values, values', hlength with
      | [_, _], [_, _], _ => exact .ok trivial
      | [], [], _ | [_], [_], _ | _ :: _ :: _ :: _, _ :: _ :: _ :: _, _ => exact .error (.same _)

/-- Where the same nodes are known, with whatever values, a tree has the same outcome. -/
theorem treeValue_sameOutcome (hknown : ∀ n, (known n).isSome = (known' n).isSome)
    (hcall : UniformCalls call call') (e : Expr) :
    SameOutcome (treeValue known call whole e) (treeValue known' call' whole e) := by
  induction e using Expr.children_induction with
  | step e ih =>
      have hself := hknown e
      cases hvalue : known e with
      | some value =>
          rw [hvalue] at hself
          obtain ⟨value', hvalue'⟩ := Option.isSome_iff_exists.1 hself.symm
          rw [treeValue_of_known hvalue, treeValue_of_known hvalue']
          exact .ok trivial
      | none =>
          have hvalue' : known' e = none := by
            rw [hvalue] at hself
            simpa using hself.symm
          obtain ⟨hnone, hnone'⟩ | ⟨error, error', hsome, hsome', hcause⟩ :=
            knownObstacle?_sameCause known known' whole e
          · rw [treeValue_of_children {} hvalue hnone, treeValue_of_children {} hvalue' hnone',
              treeValues_eq_mapM, treeValues_eq_mapM]
            apply Outcomes.bind (Outcomes.mapM e.children ih)
            intro values values' hvalues
            exact Environment.combine_sameOutcome _ _ hcall e hvalues.length_eq
          · rw [treeValue_of_obstacle hvalue hsome, treeValue_of_obstacle hvalue' hsome']
            exact .error hcause

end Trees

/-! ### Expressions -/

/-- Over tables of the same nodes an expression has the same outcome. -/
theorem Environment.evaluate_sameOutcome {g : Graph} {e : Expr} (he : e ∈ g) {env env' : Environment}
    (hnodes : env.table.nodes = env'.table.nodes) (hcall : UniformCalls env.call env'.call) :
    SameOutcome (env.evaluate e) (env'.evaluate e) := by
  rw [evaluate_eq_treeEvaluate he, evaluate_eq_treeEvaluate he, treeEvaluate, treeEvaluate]
  have hfirst : (env.table.first? e).isSome = (env'.table.first? e).isSome := by
    rw [ParameterTable.isSome_first?, ParameterTable.isSome_first?, hnodes]
  have hlast (n : Expr) : (env.table.last? n).isSome = (env'.table.last? n).isSome := by
    rw [ParameterTable.isSome_last?, ParameterTable.isSome_last?, hnodes]
  cases hvalue : env.table.first? e with
  | some value =>
      rw [hvalue] at hfirst
      obtain ⟨value', hvalue'⟩ := Option.isSome_iff_exists.1 hfirst.symm
      rw [hvalue']
      exact .ok trivial
  | none =>
      rw [hvalue] at hfirst
      have hvalue' : env'.table.first? e = none := by simpa using hfirst.symm
      rw [hvalue']
      exact treeValue_sameOutcome hlast hcall e

/-! ### Calls -/

namespace FunctionTable

variable {functions : FunctionTable} {g : Graph}

/-- Outputs are selected by their number. -/
theorem selectOutput_sameOutcome (name : String) (output : Nat) {values values' : List Float}
    (hlength : values.length = values'.length) :
    SameOutcome (selectOutput name output values) (selectOutput name output values') := by
  by_cases houtput : output < values.length
  · simp only [selectOutput, List.getElem?_eq_getElem houtput,
      List.getElem?_eq_getElem (hlength ▸ houtput)]
    exact .ok trivial
  · have hnone : values[output]? = none := List.getElem?_eq_none (by omega)
    have hnone' : values'[output]? = none := List.getElem?_eq_none (by omega)
    simp only [selectOutput, hnone, hnone']
    exact .error (.same _)

/-- A function is applied to equally many arguments with the same outcome. -/
theorem apply_sameOutcome {call call' : CallSemantics} (hcall : UniformCalls call call')
    {f : ModelFunction} (houtputs : ∀ o ∈ f.outputs, o ∈ g) {args args' : List Float}
    (hlength : args.length = args'.length) :
    Outcomes (List.Forall₂ fun _ _ => True) (f.apply call args) (f.apply call' args') := by
  by_cases harity : args.length = f.inputs.length
  · simp only [ModelFunction.apply, ModelFunction.applyWith, ← hlength, harity, bne_self_eq_false,
      Bool.false_eq_true, if_false]
    apply Outcomes.mapM
    intro o ho
    apply Environment.evaluate_sameOutcome (houtputs o ho) _ hcall
    rw [nodes_args harity, nodes_args (hlength ▸ harity)]
  · have hrefused : (args.length != f.inputs.length) = true := by simpa using harity
    simp only [ModelFunction.apply, ModelFunction.applyWith, ← hlength, hrefused, if_true]
    exact .error (.same _)

/-- However many calls there is room for inside each other, calls look at the number of their arguments
    only. The induction is on the room. -/
theorem callNested_sameOutcome (hfunctions : functions.DrawnFrom g) {beyond : CallSemantics}
    (hbeyond : UniformCalls beyond beyond) (room : Nat) (active : List String) :
    UniformCalls (functions.callNested beyond room active) (functions.callNested beyond room active) := by
  induction room generalizing active with
  | zero =>
      intro name args args' output hlength
      rw [callNested, callNested]
      split
      · exact .error (.same _)
      · split
        · exact .error (.same _)
        · exact hbeyond name args args' output hlength
  | succ room ih =>
      intro name args args' output hlength
      rw [callNested, callNested]
      split
      · exact .error (.same _)
      · split
        · exact .error (.same _)
        · rename_i f hfound
          apply Outcomes.bind (apply_sameOutcome (ih _) (hfunctions name f hfound) hlength)
          intro values values' hvalues
          exact selectOutput_sameOutcome name output hvalues.length_eq

/-- Calls of the functions of a table look at the number of their arguments only. -/
theorem uniformCalls_call (hfunctions : functions.DrawnFrom g) :
    UniformCalls (functions.call []) (functions.call []) := by
  let beyond : CallSemantics := fun name _ _ => .error (.missingValue name)
  have hroom : functions.callNested beyond functions.size [] = functions.call [] :=
    callNested_eq beyond active_nil (Nat.le_add_left functions.size 0)
  have hbeyond : UniformCalls beyond beyond := fun _ _ _ _ _ => .error (.same _)
  have hnested := callNested_sameOutcome hfunctions hbeyond functions.size []
  rw [hroom] at hnested
  exact hnested

/-- Over tables that have the same nodes in the same order, with whatever values, an expression has a value
    under both or under neither; and if under neither, then both errors are the same, but for the text of
    a node that is not numeric. -/
theorem evaluate_valueIndependent (g : Graph) (functions : FunctionTable)
    (hfunctions : functions.DrawnFrom g) (table table' : ParameterTable)
    (hnodes : table.nodes = table'.nodes) (e : Expr) (he : e ∈ g) :
    SameOutcome ((functions.environment table).evaluate e) ((functions.environment table').evaluate e) :=
  Environment.evaluate_sameOutcome he hnodes (uniformCalls_call hfunctions)

/-- What is refused as recursive with `p = 2` is refused where `p` is no number. -/
theorem evaluate_valueIndependent_nan :
    callTable.DrawnFrom callGraph ∧
    (ParameterTable.ofRows [(.symbol 4 "p", 2.0)]).nodes =
      (ParameterTable.ofRows [(.symbol 4 "p", 0.0 / 0.0)]).nodes ∧
    .call 13 "g" [.symbol 4 "p"] 0 ∈ callGraph ∧
    (callTable.environment (.ofRows [(.symbol 4 "p", 0.0 / 0.0)])).evaluate
      (.call 13 "g" [.symbol 4 "p"] 0) = .error (.functionFault "g" .recursiveCall) := by
  have hg : .call 13 "g" [.symbol 4 "p"] 0 ∈ callGraph := by
    change _ ∈ callNodes
    simp [callNodes]
  have hnodes (x : Float) : (ParameterTable.ofRows [(.symbol 4 "p", x)]).nodes = [.symbol 4 "p"] := rfl
  have hsame := (hnodes 2.0).trans (hnodes (0.0 / 0.0)).symm
  refine ⟨callTable_drawnFrom, hsame, hg, ?_⟩
  have hboth := evaluate_valueIndependent callGraph callTable callTable_drawnFrom
    (.ofRows [(.symbol 4 "p", 2.0)]) (.ofRows [(.symbol 4 "p", 0.0 / 0.0)]) hsame _ hg
  rw [evaluate_g] at hboth
  exact hboth.eq_of_functionFault

end FunctionTable

end FlatDae
