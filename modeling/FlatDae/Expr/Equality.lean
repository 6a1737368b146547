/-
Module: FlatDae.Expr.Equality
Purpose: Structural equality of expressions. One node equals itself whatever it holds; different
  nodes are equal if they have the same shape, constants that are equal as doubles, and symbols in
  common: two symbols are equal only if they are one node.
Main exports: Expr.agreeAtTop, Expr.childPairs, Expr.equal
-/
import FlatDae.Expr.Traversal

namespace FlatDae.Expr

/-- Whether two different nodes agree in everything but their children. -/
def agreeAtTop : Expr → Expr → Bool
  | .constant _ x, .constant _ y => x == y
  | .unary _ op _, .unary _ op' _ => op == op'
  | .binary _ op _ _, .binary _ op' _ _ => op == op'
  | .der _ _, .der _ _ => true
  | .call _ f args k, .call _ f' args' k' => f == f' && k == k' && args.length == args'.length
  | .vertcat _ rows, .vertcat _ rows' => rows.length == rows'.length
  | _, _ => false

/-- Pairing off takes nothing but what is there. -/
theorem pendingSize_map_fst_zip_le (es fs : List Expr) :
    pendingSize ((es.zip fs).map Prod.fst) ≤ pendingSize es := by
  induction es generalizing fs with
  | nil => simp
  | cons e es ih =>
    cases fs with
    | nil => simp
    | cons f fs => have := ih fs; simp; omega

/-- The children of two nodes side by side, the last ones first. -/
def childPairs (a b : Expr) : List (Expr × Expr) := (a.children.zip b.children).reverse

/-- Pairing the children costs nothing. -/
theorem pendingSize_map_fst_childPairs_le (a b : Expr) :
    pendingSize ((a.childPairs b).map Prod.fst) ≤ pendingSize a.children := by
  simp only [childPairs, List.map_reverse, pendingSize_reverse]
  exact pendingSize_map_fst_zip_le a.children b.children

/-- Whether every pending pair is equal. The answer does not depend on the order of the pairs, but the
    work does: comparing stops at the first difference, and shared nodes are compared once for every
    way that leads to them. -/
def allEqual : List (Expr × Expr) → Bool
  | [] => true
  | (a, b) :: rest =>
    if a.same b then allEqual rest
    else if a.agreeAtTop b then allEqual (a.childPairs b ++ rest)
    else false
termination_by pairs => pendingSize (pairs.map Prod.fst)
decreasing_by
  · have := sizeOf_pos a
    simp only [List.map_cons, pendingSize_cons]
    omega
  · have := pendingSize_children_lt a
    have := pendingSize_map_fst_childPairs_le a b
    simp only [List.map_cons, List.map_append, pendingSize_append, pendingSize_cons]
    omega

/-- Structural equality. -/
def equal (a b : Expr) : Bool := allEqual [(a, b)]

end FlatDae.Expr
