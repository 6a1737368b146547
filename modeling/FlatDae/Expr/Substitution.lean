/-
Module: FlatDae.Expr.Substitution
Purpose: Replacing nodes of an expression by others. Nodes are matched by identity, replacements are
  not searched again, every shared node is rebuilt once, and what does not change is the very node
  it was.
Main exports: Expr.Replacements, Expr.Replacements.ofLists?, Expr.rebuild, Expr.substitute?,
  Expr.substitute
-/
import FlatDae.Expr.Traversal
import Std.Data.HashMap

namespace FlatDae.Expr

/-- What each node to be replaced becomes. -/
abbrev Replacements := Std.HashMap NodeId Expr

/-- Pairs the nodes of `sources` with those of `targets`; of two entries for one node the last
    counts. Lists of different lengths have no pairing. -/
def Replacements.ofLists? (sources targets : List Expr) : Option Replacements :=
  if sources.length == targets.length then
    some ((sources.zip targets).foldl (fun r (source, target) => r.insert source.id target) ∅)
  else none

/-- The node over new children, one for each it has: itself if every child is the very node it was,
    and a new node of the same kind otherwise. -/
def rebuild (e : Expr) (newChildren : List Expr) : Fresh Expr :=
  if (newChildren.zip e.children).all (fun (new, old) => new.same old) then pure e
  else
    match e, newChildren with
    | .unary _ op _, [child] => Fresh.unary op child
    | .der _ _, [child] => Fresh.der child
    | .binary _ op _ _, [left, right] => Fresh.binary op left right
    | .call _ function _ output, args => Fresh.call function args output
    | .vertcat _ _, rows => Fresh.vertcat rows
    | e, _ => pure e

/-- Carries out the pending tasks. `done` maps each node already treated to what became of it; a
    node's children are treated before the node is finished. There is no result if a child is looked
    up that has not been treated. -/
def substituteTasks (replacements : Replacements) :
    List Task → Std.HashMap NodeId Expr → Supply → Option (Std.HashMap NodeId Expr × Supply)
  | [], done, supply => some (done, supply)
  | .visit e :: rest, done, supply =>
    if done.contains e.id then substituteTasks replacements rest done supply
    else
      match replacements[e.id]? with
      | some target => substituteTasks replacements rest (done.insert e.id target) supply
      | none => substituteTasks replacements (Task.expand e rest) done supply
  | .finish e :: rest, done, supply =>
    match e.children.mapM fun c => done[c.id]? with
    | none => none
    | some newChildren =>
      let (rebuilt, supply) := (e.rebuild newChildren).run supply
      substituteTasks replacements rest (done.insert e.id rebuilt) supply
termination_by tasks => Task.pendingWeight tasks
decreasing_by
  · exact Task.pendingWeight_tail_lt _ _
  · exact Task.pendingWeight_tail_lt _ _
  · exact Task.pendingWeight_expand_lt _ _
  · exact Task.pendingWeight_tail_lt _ _

/-- The expression with every node of `replacements` replaced, all at once, and the supply left; none
    if a node is looked up that has not been treated. -/
def substitute? (e : Expr) (replacements : Replacements) (supply : Supply) :
    Option (Expr × Supply) := do
  let (done, supply) ← substituteTasks replacements [.visit e] ∅ supply
  return (← done[e.id]?, supply)

/-- The expression with every node of `replacements` replaced. -/
def substitute (e : Expr) (replacements : Replacements) : Fresh Expr := fun supply =>
  (e.substitute? replacements supply).getD (e, supply)

end FlatDae.Expr
