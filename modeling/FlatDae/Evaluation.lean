/-
Module: FlatDae.Evaluation
Purpose: The value of an expression whose symbols are known from a table. The known nodes are replaced
  by constants first; what results is reduced from left to right, children first, every shared node
  once, and the first obstacle met in that order is the error. What a function call means is a
  parameter of the evaluation, so that everything here is said without functions calling each other.
Main exports: CallSemantics, Environment, Environment.obstacle?, Environment.combine,
  Environment.reduce?, Environment.evaluate?, Environment.evaluate
-/
import FlatDae.Expr.Print
import FlatDae.Expr.Substitution
import FlatDae.ModelError
import FlatDae.ParameterTable

namespace FlatDae

/-- What a call of a named function over argument values gives for one of its outputs. -/
abbrev CallSemantics := String → List Float → Nat → Except ModelError Float

/-- What an evaluation consults: the known values and the meaning of function calls. -/
structure Environment where
  table : ParameterTable
  call : CallSemantics

namespace Environment

/-- Why a node has no value, whatever its children are: it is a symbol, a derivative, or a stack of
    other than one row. A missing symbol is reported with the `original` expression. -/
def obstacle? (original : Expr) : Expr → Option ModelError
  | .symbol _ name => some (.unresolved name original.print)
  | .der id child => some (.nonNumeric (Expr.der id child).print)
  | .vertcat _ [_] => none
  | .vertcat id rows => some (.nonNumeric (Expr.vertcat id rows).print)
  | _ => none

/-- The value of a node from those of its children. -/
def combine (env : Environment) : Expr → List Float → Except ModelError Float
  | .constant _ value, _ => .ok value
  | .unary _ op _, [x] => .ok (op.apply x)
  | .binary _ op _ _, [x, y] => .ok (op.apply x y)
  | .call _ function _ output, args => env.call function args output
  | .vertcat _ _, [x] => .ok x
  | e, _ => .error (.nonNumeric e.print)

/-- Carries out the pending tasks. `values` holds the value of every node treated so far. There is no
    result if a child is looked up that has not been treated. -/
def reduceTasks (env : Environment) (original : Expr) :
    List Expr.Task → Std.HashMap NodeId Float → Option (Except ModelError (Std.HashMap NodeId Float))
  | [], values => some (.ok values)
  | .visit e :: rest, values =>
    if values.contains e.id then env.reduceTasks original rest values
    else
      match obstacle? original e with
      | some error => some (.error error)
      | none => env.reduceTasks original (Expr.Task.expand e rest) values
  | .finish e :: rest, values =>
    if values.contains e.id then env.reduceTasks original rest values
    else
      match e.children.mapM fun c => values[c.id]? with
      | none => none
      | some children =>
        match env.combine e children with
        | .error error => some (.error error)
        | .ok value => env.reduceTasks original rest (values.insert e.id value)
termination_by tasks => Expr.Task.pendingWeight tasks
decreasing_by
  · exact Expr.Task.pendingWeight_tail_lt _ _
  · exact Expr.Task.pendingWeight_expand_lt _ _
  · exact Expr.Task.pendingWeight_tail_lt _ _
  · exact Expr.Task.pendingWeight_tail_lt _ _

/-- The value of an expression in which nothing is left to be replaced; none if a node is looked up
    that has not been treated. -/
def reduce? (env : Environment) (e original : Expr) : Option (Except ModelError Float) := do
  match ← env.reduceTasks original [.visit e] ∅ with
  | .error error => return .error error
  | .ok values => return .ok (← values[e.id]?)

/-- The value of an expression; none if a node is looked up that has not been treated. A node of the
    table is not looked into. The constants for the known values and the nodes rebuilt over them are
    nodes of this evaluation only. -/
def evaluate? (env : Environment) (e : Expr) : Option (Except ModelError Float) :=
  match env.table.first? e with
  | some value => some (.ok value)
  | none => do
    let (constants, supply) := (env.table.values.mapM Fresh.constant).run (e.supplyAbove)
    let replacements ← Expr.Replacements.ofLists? env.table.nodes constants
    let (substituted, _) ← e.substitute? replacements supply
    env.reduce? substituted e

/-- The value of an expression. -/
def evaluate (env : Environment) (e : Expr) : Except ModelError Float :=
  (env.evaluate? e).getD (.error (.nonNumeric e.print))

end Environment

end FlatDae
