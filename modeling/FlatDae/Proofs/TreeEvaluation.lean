/-
Module: FlatDae.Proofs.TreeEvaluation
Purpose: Plain recursion over the unfolded tree, and what reducing a graph has to do with it.
  `treeValue` knows nothing of sharing, looks at a node before its children and at children from left
  to right. Reducing with an explicit stack and one value for every shared node gives the same value or
  the same first error and never looks up a node it has not treated.
Main exports: treeValue, Environment.treeEvaluate, NodeFailure, treeValue_eq_ok_iff, treeValue_eq_error,
  Recorded, Environment.reduce?_eq
-/
import FlatDae.ModelFunction
import FlatDae.Proofs.FallibleLists
import FlatDae.Proofs.SubstitutionGraph
import Mathlib.Data.List.Forall2

namespace FlatDae

open FlatDae.Expr (Alike Graph Replaced Replacements Task)

/-! ### The recursive evaluator -/

mutual

/-- The value of a tree. A node that is `known` is not looked into; a symbol has no other value, and a
    derivative or a stack of other than one row has none, whatever its children are. A missing symbol
    is reported with the `whole` expression, any other node as it reads with the known values in it. -/
def treeValue (known : Expr → Option Float) (call : CallSemantics) (whole e : Expr) :
    Except ModelError Float :=
  match known e with
  | some value => .ok value
  | none =>
    match e with
    | .constant _ value => .ok value
    | .symbol _ name => .error (.unresolved name whole.print)
    | .unary _ op child => do return op.apply (← treeValue known call whole child)
    | .binary _ op left right => do
      let x ← treeValue known call whole left
      let y ← treeValue known call whole right
      return op.apply x y
    | .der id child => .error (.nonNumeric ((Expr.der id child).printWith known))
    | .call _ function args output => do
      let xs ← treeValues known call whole args
      call function xs output
    | .vertcat _ [row] => treeValue known call whole row
    | .vertcat id rows => .error (.nonNumeric ((Expr.vertcat id rows).printWith known))
termination_by structural e

/-- The values of trees from left to right, up to the first error. -/
def treeValues (known : Expr → Option Float) (call : CallSemantics) (whole : Expr)
    (es : List Expr) : Except ModelError (List Float) :=
  match es with
  | [] => .ok []
  | e :: es => do
    let x ← treeValue known call whole e
    let xs ← treeValues known call whole es
    return x :: xs
termination_by structural es

end

/-- The value of an expression by recursion. Asked for by itself a node has the value of its first row,
    inside a larger expression that of its last. -/
def Environment.treeEvaluate (env : Environment) (e : Expr) : Except ModelError Float :=
  match env.table.first? e with
  | some value => .ok value
  | none => treeValue env.table.last? env.call e e

section Steps

variable {known : Expr → Option Float} {call : CallSemantics} {whole e : Expr}

/-- Why a node that is not known has no value, whatever its children are. -/
def knownObstacle? (known : Expr → Option Float) (whole : Expr) : Expr → Option ModelError
  | .symbol _ name => some (.unresolved name whole.print)
  | .der id child => some (.nonNumeric ((Expr.der id child).printWith known))
  | .vertcat _ [_] => none
  | .vertcat id rows => some (.nonNumeric ((Expr.vertcat id rows).printWith known))
  | _ => none

/-- Where nothing is known, the obstacles are those of the evaluator. -/
theorem knownObstacle?_none (whole e : Expr) :
    knownObstacle? (fun _ => none) whole e = Environment.obstacle? whole e := by
  unfold knownObstacle? Environment.obstacle?
  rfl

/-- Whether there is an obstacle depends on the kind of a node and on the number of its children. -/
theorem knownObstacle?_eq_none {known' : Expr → Option Float} {whole' t : Expr} (halike : Alike e t)
    (hlength : t.children.length = e.children.length) (h : knownObstacle? known whole e = none) :
    knownObstacle? known' whole' t = none := by
  cases halike with
  | vertcat i j cs ds =>
      simp only [Expr.children] at hlength
      rcases cs with _ | ⟨c, _ | ⟨c', cs⟩⟩
      · cases h
      · obtain ⟨d, rfl⟩ := List.length_eq_one_iff.1 hlength
        rfl
      · cases h
  | _ => first | rfl | cases h

/-- Trees are evaluated one by one. -/
theorem treeValues_eq_mapM (es : List Expr) :
    treeValues known call whole es = es.mapM (treeValue known call whole) := by
  induction es with
  | nil => rfl
  | cons e es ih => rw [treeValues, List.mapM_cons, ih]

theorem treeValue_of_known {value : Float} (h : known e = some value) :
    treeValue known call whole e = .ok value := by
  rw [treeValue.eq_def, h]

/-- An obstacle is found before the children are looked at. -/
theorem treeValue_of_obstacle {error : ModelError} (h : known e = none)
    (hobstacle : knownObstacle? known whole e = some error) :
    treeValue known call whole e = .error error := by
  rw [treeValue.eq_def, h]
  unfold knownObstacle? at hobstacle
  split at hobstacle <;> simp_all

/-- Without an obstacle a node combines the values of its children. -/
theorem treeValue_of_children (table : ParameterTable) (h : known e = none)
    (hobstacle : knownObstacle? known whole e = none) :
    treeValue known call whole e =
      (treeValues known call whole e.children).bind (Environment.combine { table, call } e) := by
  rw [treeValue.eq_def, h]
  match e, hobstacle with
  | .constant _ _, _ => rfl
  | .unary _ _ child, _ =>
      simp only [Expr.children, treeValues]
      cases treeValue known call whole child <;> rfl
  | .binary _ _ left right, _ =>
      simp only [Expr.children, treeValues]
      cases treeValue known call whole left with
      | error => rfl
      | ok => cases treeValue known call whole right <;> rfl
  | .call _ _ args _, _ =>
      simp only [Expr.children]
      cases treeValues known call whole args <;> rfl
  | .vertcat _ [row], _ =>
      simp only [Expr.children, treeValues]
      cases treeValue known call whole row <;> rfl

/-- What calls mean matters to a node only if it is a call. -/
theorem Environment.combine_cases (e : Expr) :
    (∃ id function args output, e = .call id function args output) ∨
      ∀ env env' : Environment, env.combine e = env'.combine e := by
  cases e with
  | call id function args output => exact Or.inl ⟨id, function, args, output, rfl⟩
  | _ =>
      refine Or.inr fun env env' => ?_
      funext values
      unfold combine
      split <;> first | rfl | contradiction

/-- A node that is no call has a value if its children have. -/
theorem Environment.exists_combine (hcall : ∀ id function args output, e ≠ .call id function args output)
    (hobstacle : knownObstacle? known whole e = none) {values : List Float}
    (hlength : e.children.length = values.length) (env : Environment) :
    ∃ value, env.combine e values = .ok value := by
  match e, hobstacle with
  | .constant _ value, _ => exact ⟨value, rfl⟩
  | .unary _ op child, _ =>
      obtain ⟨x, rfl⟩ := List.length_eq_one_iff.1 hlength.symm
      exact ⟨op.apply x, rfl⟩
  | .binary _ op left right, _ =>
      obtain ⟨x, y, rfl⟩ := List.length_eq_two.1 hlength.symm
      exact ⟨op.apply x y, rfl⟩
  | .call id function args output, _ => exact absurd rfl (hcall id function args output)
  | .vertcat _ [row], _ =>
      obtain ⟨x, rfl⟩ := List.length_eq_one_iff.1 hlength.symm
      exact ⟨x, rfl⟩

/-- A node without an obstacle that is not known has a value if its children have, and they make it. -/
theorem treeValue_eq_ok_iff (hknown : known e = none) (hobstacle : knownObstacle? known whole e = none)
    {value : Float} :
    treeValue known call whole e = .ok value ↔
      ∃ values, List.Forall₂ (fun c v => treeValue known call whole c = .ok v) e.children values ∧
        Environment.combine { table := {}, call } e values = .ok value := by
  rw [treeValue_of_children {} hknown hobstacle, treeValues_eq_mapM]
  constructor
  · intro h
    cases hvalues : e.children.mapM (treeValue known call whole) with
    | error error =>
        rw [hvalues] at h
        cases h
    | ok values =>
        rw [hvalues] at h
        exact ⟨values, mapM_eq_ok_iff.1 hvalues, h⟩
  · rintro ⟨values, hvalues, hcombine⟩
    rw [mapM_eq_ok_iff.2 hvalues]
    exact hcombine

/-- Why a node has no value: there is an obstacle, the first child without a value has none, or it is a
    call that has none of the values of its arguments. -/
inductive NodeFailure (known : Expr → Option Float) (call : CallSemantics) (whole : Expr) :
    Expr → ModelError → Prop where
  | obstacle {e : Expr} {error : ModelError} (hknown : known e = none)
      (hobstacle : knownObstacle? known whole e = some error) : NodeFailure known call whole e error
  | child {e c : Expr} {before after : List Expr} {error : ModelError} (hknown : known e = none)
      (hobstacle : knownObstacle? known whole e = none) (hsplit : e.children = before ++ c :: after)
      (hbefore : ∀ b ∈ before, ∃ value, treeValue known call whole b = .ok value)
      (hc : treeValue known call whole c = .error error) : NodeFailure known call whole e error
  | call {id : NodeId} {function : String} {args : List Expr} {output : Nat} {values : List Float}
      {error : ModelError} (hknown : known (.call id function args output) = none)
      (hvalues : List.Forall₂ (fun c v => treeValue known call whole c = .ok v) args values)
      (hcall : call function values output = .error error) :
      NodeFailure known call whole (.call id function args output) error

theorem treeValue_eq_error {error : ModelError} (h : treeValue known call whole e = .error error) :
    NodeFailure known call whole e error := by
  cases hknown : known e with
  | some value =>
      rw [treeValue_of_known hknown] at h
      cases h
  | none =>
      cases hobstacle : knownObstacle? known whole e with
      | some error' =>
          rw [treeValue_of_obstacle hknown hobstacle] at h
          obtain rfl := Except.error.inj h
          exact .obstacle hknown hobstacle
      | none =>
          rw [treeValue_of_children {} hknown hobstacle, treeValues_eq_mapM] at h
          cases hvalues : e.children.mapM (treeValue known call whole) with
          | error error' =>
              rw [hvalues] at h
              obtain rfl := Except.error.inj h
              obtain ⟨before, c, after, hsplit, hbefore, hc⟩ := mapM_eq_error_iff.1 hvalues
              exact .child hknown hobstacle hsplit hbefore hc
          | ok values =>
              rw [hvalues] at h
              rw [mapM_eq_ok_iff] at hvalues
              by_cases hcall : ∃ id function args output, e = .call id function args output
              · obtain ⟨id, function, args, output, rfl⟩ := hcall
                exact .call hknown hvalues h
              · simp only [not_exists] at hcall
                obtain ⟨value, hvalue⟩ := Environment.exists_combine hcall hobstacle hvalues.length_eq
                  { table := {}, call }
                simp only [Except.bind, hvalue] at h
                cases h

end Steps

/-! ### Reducing -/

section Reducing

variable (env : Environment) (original : Expr) (g : Graph)

/-- The value of a node that is to be reduced as it is. -/
abbrev Environment.reduced (e : Expr) : Except ModelError Float :=
  treeValue (fun _ => none) env.call original e

/-- Every value recorded is that of its node. -/
def Recorded (values : Std.HashMap NodeId Float) : Prop :=
  ∀ n ∈ g, ∀ v, values[n.id]? = some v → env.reduced original n = .ok v

/-- Visiting `e` ends the walk with the error of `e`, or records its value and goes on. -/
def Reduces (e : Expr) : Prop :=
  ∀ (rest : List Task) (values : Std.HashMap NodeId Float), Recorded env original g values →
    match env.reduced original e with
    | .error error => env.reduceTasks original (.visit e :: rest) values = some (.error error)
    | .ok v => ∃ values',
        env.reduceTasks original (.visit e :: rest) values = env.reduceTasks original rest values' ∧
        Recorded env original g values' ∧ (∀ id ∈ values, id ∈ values') ∧ values'[e.id]? = some v

variable {env original g}

/-- What is recorded for a node of the graph is its value. -/
theorem Recorded.getElem?_eq {values : Std.HashMap NodeId Float} (hvalues : Recorded env original g values)
    {e : Expr} (he : e ∈ g) (hid : e.id ∈ values) {v : Float} (hv : env.reduced original e = .ok v) :
    values[e.id]? = some v := by
  obtain ⟨w, hw⟩ : ∃ w, values[e.id]? = some w := ⟨_, Std.HashMap.getElem?_eq_some_getElem hid⟩
  have heq : Except.ok w = Except.ok v := (hvalues e he w hw).symm.trans hv
  rw [hw, Except.ok.inj heq]

theorem Recorded.insert {values : Std.HashMap NodeId Float} (hvalues : Recorded env original g values)
    {e : Expr} (he : e ∈ g) {v : Float} (hv : env.reduced original e = .ok v) :
    Recorded env original g (values.insert e.id v) := by
  intro n hn w hw
  rw [Std.HashMap.getElem?_insert] at hw
  by_cases hid : e.id = n.id
  · rw [if_pos (by simpa using hid)] at hw
    rw [← Graph.eq_of_id_eq he hn hid, ← Option.some.inj hw]
    exact hv
  · rw [if_neg (by simpa using hid)] at hw
    exact hvalues n hn w hw

/-- Expressions that are each reduced by a visit are reduced one after the other, up to the first that
    has an error. -/
theorem reduceTasks_visits (es : List Expr) (hes : ∀ e ∈ es, e ∈ g)
    (hreduces : ∀ e ∈ es, Reduces env original g e) (rest : List Task)
    (values : Std.HashMap NodeId Float) (hvalues : Recorded env original g values) :
    match treeValues (fun _ => none) env.call original es with
    | .error error => env.reduceTasks original (es.map .visit ++ rest) values = some (.error error)
    | .ok vs => ∃ values',
        env.reduceTasks original (es.map .visit ++ rest) values =
          env.reduceTasks original rest values' ∧
        Recorded env original g values' ∧ (∀ id ∈ values, id ∈ values') ∧
        es.mapM (fun c => values'[c.id]?) = some vs := by
  induction es generalizing values with
  | nil => exact ⟨values, rfl, hvalues, fun _ h => h, rfl⟩
  | cons e es ih =>
      have hhead := hreduces e List.mem_cons_self (es.map .visit ++ rest) values hvalues
      rw [treeValues.eq_def]
      cases hv : env.reduced original e with
      | error error =>
          rw [hv] at hhead
          simpa [Environment.reduced, bind, Except.bind, hv] using hhead
      | ok v =>
          rw [hv] at hhead
          obtain ⟨values₁, hrun₁, hvalues₁, hkeep₁, hlookup₁⟩ := hhead
          have htail := ih (fun c hc => hes c (List.mem_cons_of_mem _ hc))
            (fun c hc => hreduces c (List.mem_cons_of_mem _ hc)) values₁ hvalues₁
          cases hvs : treeValues (fun _ => none) env.call original es with
          | error error =>
              rw [hvs] at htail
              simpa [Environment.reduced, bind, Except.bind, hv, hvs, hrun₁] using htail
          | ok vs =>
              rw [hvs] at htail
              obtain ⟨values₂, hrun₂, hvalues₂, hkeep₂, hlookup₂⟩ := htail
              have hmem : e.id ∈ values₁ := by
                rw [Std.HashMap.mem_iff_isSome_getElem?, hlookup₁]
                rfl
              have hlookup : values₂[e.id]? = some v :=
                hvalues₂.getElem?_eq (hes e List.mem_cons_self) (hkeep₂ _ hmem) hv
              simp only [Environment.reduced] at hv
              simp only [hv, hvs, bind, Except.bind, pure, Except.pure]
              refine ⟨values₂, ?_, hvalues₂, fun id h => hkeep₂ id (hkeep₁ id h), ?_⟩
              · rw [List.map_cons, List.cons_append, hrun₁, hrun₂]
              · rw [List.mapM_cons, hlookup, hlookup₂]
                rfl

/-- A node whose children are recorded is finished with its error or with its value recorded. -/
theorem reduceTasks_finish {e : Expr} (he : e ∈ g) (rest : List Task)
    {values : Std.HashMap NodeId Float} (hvalues : Recorded env original g values) {vs : List Float}
    (hlookup : e.children.mapM (fun c => values[c.id]?) = some vs)
    (hvalue : env.reduced original e = env.combine e vs) :
    match env.combine e vs with
    | .error error => env.reduceTasks original (.finish e :: rest) values = some (.error error)
    | .ok v => ∃ values',
        env.reduceTasks original (.finish e :: rest) values = env.reduceTasks original rest values' ∧
        Recorded env original g values' ∧ (∀ id ∈ values, id ∈ values') ∧
        values'[e.id]? = some v := by
  rw [Environment.reduceTasks.eq_3, hlookup]
  by_cases hagain : values.contains e.id
  · -- impossible in a tree, and harmless: what is recorded is the value of `e`
    rw [if_pos hagain]
    obtain ⟨w, hw⟩ : ∃ w, values[e.id]? = some w :=
      ⟨_, Std.HashMap.getElem?_eq_some_getElem (Std.HashMap.mem_iff_contains.2 hagain)⟩
    have hcombine : env.combine e vs = .ok w := hvalue ▸ hvalues e he w hw
    rw [hcombine]
    exact ⟨values, rfl, hvalues, fun _ h => h, hw⟩
  · rw [if_neg hagain]
    cases hcombine : env.combine e vs with
    | error error => simp only [hcombine]
    | ok v =>
        refine ⟨values.insert e.id v, by simp only [hcombine], ?_, ?_, ?_⟩
        · exact hvalues.insert he (hvalue.trans hcombine)
        · exact fun id h => Std.HashMap.mem_insert.2 (Or.inr h)
        · rw [Std.HashMap.getElem?_insert, if_pos (by simp)]

variable (env original) in
/-- Every node of the graph is reduced by a visit. The induction follows the children. -/
theorem reduceTasks_visit (e : Expr) (he : e ∈ g) : Reduces env original g e := by
  induction e using Expr.children_induction with
  | step e ih =>
      intro rest values hvalues
      by_cases hdone : e.id ∈ values
      · obtain ⟨w, hw⟩ : ∃ w, values[e.id]? = some w :=
          ⟨_, Std.HashMap.getElem?_eq_some_getElem hdone⟩
        rw [hvalues e he w hw]
        refine ⟨values, ?_, hvalues, fun _ h => h, hw⟩
        rw [Environment.reduceTasks.eq_2, if_pos (Std.HashMap.mem_iff_contains.1 hdone)]
      have hcontains : ¬ values.contains e.id := fun h => hdone (Std.HashMap.mem_iff_contains.2 h)
      cases hobstacle : Environment.obstacle? original e with
      | some error =>
          have hvalue : env.reduced original e = .error error :=
            treeValue_of_obstacle rfl ((knownObstacle?_none original e).trans hobstacle)
          rw [hvalue, Environment.reduceTasks.eq_2, if_neg hcontains, hobstacle]
      | none =>
          have hvalue : env.reduced original e =
              (treeValues (fun _ => none) env.call original e.children).bind (env.combine e) :=
            treeValue_of_children env.table rfl
              ((knownObstacle?_none original e).trans hobstacle)
          have hexpand : env.reduceTasks original (.visit e :: rest) values =
              env.reduceTasks original (e.children.map .visit ++ .finish e :: rest) values := by
            rw [Environment.reduceTasks.eq_2, if_neg hcontains, hobstacle]
            rfl
          have hchildren := reduceTasks_visits e.children (fun c hc => Graph.mem_children he hc)
            (fun c hc => ih c hc (Graph.mem_children he hc)) (.finish e :: rest) values hvalues
          rw [hexpand]
          cases hvs : treeValues (fun _ => none) env.call original e.children with
          | error error =>
              rw [hvs] at hchildren hvalue
              rw [hvalue]
              exact hchildren
          | ok vs =>
              rw [hvs] at hchildren hvalue
              obtain ⟨values₁, hrun₁, hvalues₁, hkeep₁, hlookup₁⟩ := hchildren
              have hfinish := reduceTasks_finish he rest hvalues₁ hlookup₁ hvalue
              rw [hrun₁, hvalue]
              simp only [Except.bind]
              cases hcombine : env.combine e vs with
              | error error =>
                  rw [hcombine] at hfinish
                  exact hfinish
              | ok v =>
                  rw [hcombine] at hfinish
                  obtain ⟨values₂, hrun₂, hvalues₂, hkeep₂, hlookup₂⟩ := hfinish
                  exact ⟨values₂, hrun₂, hvalues₂, fun id h => hkeep₂ id (hkeep₁ id h), hlookup₂⟩

/-- Reducing a node of a graph never misses a look-up and gives the value that recursion gives. -/
theorem Environment.reduce?_eq {e : Expr} (he : e ∈ g) :
    env.reduce? e original = some (env.reduced original e) := by
  have hvisit := reduceTasks_visit env original e he [] ∅
    (by intro n _ v hv; simp at hv)
  cases hv : env.reduced original e with
  | error error =>
      rw [hv] at hvisit
      simp [Environment.reduce?, hvisit]
  | ok v =>
      rw [hv] at hvisit
      obtain ⟨values, hrun, _, _, hlookup⟩ := hvisit
      rw [Environment.reduceTasks.eq_1] at hrun
      simp [Environment.reduce?, hrun, hlookup]

end Reducing

end FlatDae
