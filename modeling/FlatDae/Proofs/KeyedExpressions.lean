/-
Module: FlatDae.Proofs.KeyedExpressions
Purpose: What the nodes of a table are worth by themselves and inside larger expressions. A node of the
  table that is asked for by itself is looked up and has the value in its first row; replacing and
  reducing gives it the value in its last row, and that is also what it counts with inside a larger
  expression. The two agree on an expression exactly if its first and its last row do.
Main exports: Environment.evaluate_eq_substituted_iff
-/
import FlatDae.Proofs.EvaluatorAgreement

namespace FlatDae

open FlatDae.Expr (Graph)

/-- Evaluating an expression and replacing and reducing in it come to the same exactly if the table gives
    the expression itself one value, or none. A node of the table is worth its first row by itself, and its
    last row otherwise; where these agree for every node, a node has one value wherever it stands. -/
theorem Environment.evaluate_eq_substituted_iff {g : Graph} {e : Expr} (he : e ∈ g) (env : Environment) :
    (env.evaluate? e = env.substituteAndReduce? e ↔ env.table.first? e = env.table.last? e) ∧
    (∀ value, env.table.first? e = some value → env.evaluate? e = some (.ok value) ∧
      ∃ last, env.table.last? e = some last ∧ env.substituteAndReduce? e = some (.ok last)) ∧
    (env.table.first? = env.table.last? →
      env.evaluate? e = some (treeValue env.table.first? env.call e e)) := by
  have hknown : (env.table.first? e).isSome = (env.table.last? e).isSome := by
    rw [ParameterTable.isSome_first?, ParameterTable.isSome_last?]
  have hvalue {value : Float} (hfirst : env.table.first? e = some value) :
      env.evaluate? e = some (.ok value) ∧
        ∃ last, env.table.last? e = some last ∧ env.substituteAndReduce? e = some (.ok last) := by
    refine ⟨by rw [evaluate?, hfirst], ?_⟩
    rw [hfirst] at hknown
    rcases Option.isSome_iff_exists.1 hknown.symm with ⟨last, hlast⟩
    exact ⟨last, hlast, by rw [substituteAndReduce?_eq he, treeValue_of_known hlast]⟩
  refine ⟨?_, fun value => hvalue, fun hsame => ?_⟩
  · cases hfirst : env.table.first? e with
    | none =>
        rw [hfirst] at hknown
        have hlast : env.table.last? e = none := by simpa using hknown.symm
        simp [evaluate?_of_first?_eq_none hfirst, hlast]
    | some value =>
        rcases hvalue hfirst with ⟨halone, last, hlast, hinside⟩
        simp [halone, hinside, hlast]
  · rw [evaluate?_eq he, treeEvaluate]
    cases hfirst : env.table.first? e with
    | none => rw [hsame]
    | some value => rw [treeValue_of_known hfirst]

/-- A node with two equal rows has their value, looked up or replaced. -/
theorem Environment.evaluate_eq_substituted_iff_repeated :
    .symbol 4 "x" ∈ Graph.leaf (.symbol 4 "x") rfl ∧
    ∀ env : Environment, env.table =
        ((({} : ParameterTable).push (.symbol 4 "x") 3.0).push (.symbol 5 "y") 2.0).push (.symbol 4 "x") 3.0 →
      env.evaluate? (.symbol 4 "x") = some (.ok 3.0) ∧
      env.substituteAndReduce? (.symbol 4 "x") = some (.ok 3.0) := by
  refine ⟨rfl, fun env htable => ?_⟩
  have hfirst : env.table.first? (.symbol 4 "x") = some 3.0 := by
    rw [htable]
    rfl
  have hlast : env.table.last? (.symbol 4 "x") = some 3.0 := by
    rw [htable]
    rfl
  rcases evaluate_eq_substituted_iff (g := .leaf (.symbol 4 "x") rfl) rfl env with ⟨hiff, halone, -⟩
  have hvalue := (halone _ hfirst).1
  exact ⟨hvalue, (hiff.2 (hfirst.trans hlast.symm)).symm.trans hvalue⟩

/-- A table with `x = 1` and then `x = 2`, and no functions. -/
def Environment.twice : Environment where
  table := .ofRows [(.symbol 4 "x", 1.0), (.symbol 4 "x", 2.0)]
  call := FunctionTable.call ∅ []

/-- The nodes `x`, `0` and `x + 0`. -/
def sumGraph : Graph :=
  .ofList [.symbol 4 "x", .zero, .binary 5 .add (.symbol 4 "x") .zero] (by simp [Expr.children, Expr.zero])
    (by decide)

/-- A function of two inputs that are both `x`, with the outputs `x` and `x + 0`. -/
def repeatedInput : ModelFunction where
  name := "f"
  inputs := [.symbol 4 "x", .symbol 4 "x"]
  outputs := [.symbol 4 "x", .binary 5 .add (.symbol 4 "x") .zero]

/-- By itself `x` is then 1. Replaced and reduced it is 2, as it is inside `x + 0`; and of a function of two
    inputs that are both `x` the outputs `x` and `x + 0` are 1 and 2. -/
theorem Environment.evaluate_ne_substituted :
    twice.evaluate? (.symbol 4 "x") = some (.ok 1.0) ∧
    twice.substituteAndReduce? (.symbol 4 "x") = some (.ok 2.0) ∧
    twice.evaluate? (.binary 5 .add (.symbol 4 "x") .zero) = some (.ok 2.0) ∧
    repeatedInput.apply (FunctionTable.call ∅ []) [1.0, 2.0] = .ok [1.0, 2.0] ∧
    (1.0 : Float) ≠ 2.0 := by
  have hx : .symbol 4 "x" ∈ sumGraph := List.mem_cons_self
  have hsum : .binary 5 .add (.symbol 4 "x") .zero ∈ sumGraph :=
    List.mem_cons_of_mem _ (List.mem_cons_of_mem _ List.mem_cons_self)
  have halone : twice.evaluate? (.symbol 4 "x") = some (.ok 1.0) := by
    rw [evaluate?_eq hx]
    rfl
  have hinside : twice.evaluate? (.binary 5 .add (.symbol 4 "x") .zero) = some (.ok 2.0) := by
    have hnumber : (2.0 + 0.0 : Float) = 2.0 := by decide
    rw [evaluate?_eq hsum, ← hnumber]
    rfl
  refine ⟨halone, ?_, hinside, ?_, by decide⟩
  · rw [substituteAndReduce?_eq hx]
    rfl
  · change (do return [← twice.evaluate (.symbol 4 "x"),
      ← twice.evaluate (.binary 5 .add (.symbol 4 "x") .zero)]) = _
    rw [evaluate, evaluate, halone, hinside]
    rfl

end FlatDae
