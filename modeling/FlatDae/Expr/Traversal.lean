/-
Module: FlatDae.Expr.Traversal
Purpose: Walking an expression with an explicit list of what is left to do, so that the depth of an
  expression costs no stack. Every walk ends because the expressions still on its list get smaller;
  the size of an expression exceeds that of its children together, which is proved here once.
Main exports: Expr.pendingSize, Expr.pendingSize_children_lt, Expr.foldNodes, Expr.supplyAbove, Expr.Task,
  Expr.Task.pendingWeight, Expr.Task.pendingWeight_expand_lt
-/
import FlatDae.Expr.Basic
import Std.Data.HashSet

namespace FlatDae.Expr

/-- The sizes of all the expressions together. -/
noncomputable def pendingSize : List Expr → Nat
  | [] => 0
  | e :: es => sizeOf e + pendingSize es

@[simp] theorem pendingSize_nil : pendingSize [] = 0 := rfl

@[simp] theorem pendingSize_cons (e : Expr) (es : List Expr) :
    pendingSize (e :: es) = sizeOf e + pendingSize es := rfl

@[simp] theorem pendingSize_append (es fs : List Expr) :
    pendingSize (es ++ fs) = pendingSize es + pendingSize fs := by
  induction es with
  | nil => simp
  | cons e es ih => simp [ih, Nat.add_assoc]

/-- The order does not matter. -/
@[simp] theorem pendingSize_reverse (es : List Expr) : pendingSize es.reverse = pendingSize es := by
  induction es with
  | nil => rfl
  | cons e es ih => simp [ih, Nat.add_comm]

/-- A list is as large as its members and its own cells. -/
theorem pendingSize_add_length_lt (es : List Expr) : pendingSize es + es.length < sizeOf es := by
  induction es with
  | nil => simp
  | cons e es ih => simp; omega

/-- An expression is larger than its children together. -/
theorem pendingSize_children_lt (e : Expr) : pendingSize e.children < sizeOf e := by
  cases e with
  | call _ _ args _ => have := pendingSize_add_length_lt args; simp [children]; omega
  | vertcat _ rows => have := pendingSize_add_length_lt rows; simp [children]; omega
  | _ =>
    simp only [children, pendingSize_cons, pendingSize_nil, Expr.constant.sizeOf_spec,
      Expr.symbol.sizeOf_spec, Expr.unary.sizeOf_spec, Expr.binary.sizeOf_spec,
      Expr.der.sizeOf_spec]
    omega

/-- Every expression has a size. -/
theorem sizeOf_pos (e : Expr) : 0 < sizeOf e :=
  Nat.lt_of_le_of_lt (Nat.zero_le _) (pendingSize_children_lt e)

/-- Walks the pending expressions in order, a node before its children, and carries `f` over the nodes
    not seen before. A shared node is entered once, however often it occurs. -/
def foldNodes {α : Type} (f : α → Expr → α) : List Expr → Std.HashSet NodeId → α → α
  | [], _, a => a
  | e :: rest, seen, a =>
    if seen.contains e.id then foldNodes f rest seen a
    else foldNodes f (e.children ++ rest) (seen.insert e.id) (f a e)
termination_by pending => pendingSize pending
decreasing_by
  · have := sizeOf_pos e
    simp only [pendingSize_cons]
    omega
  · have := pendingSize_children_lt e
    simp only [pendingSize_append, pendingSize_cons]
    omega

/-- The identities above those of all nodes of an expression, for nodes made beside it. -/
def supplyAbove (e : Expr) : Supply :=
  foldNodes (fun supply n => { next := max supply.next (n.id + 1) }) [e] ∅ {}

/-- A step of a walk that treats a node after its children: `visit` reaches a node and puts its
    children in front of its `finish`. -/
inductive Task where
  | visit (e : Expr)
  | finish (e : Expr)

namespace Task

/-- A visit pays for the visits below it and for its own finish. -/
noncomputable def weight : Task → Nat
  | .visit e => 2 * sizeOf e
  | .finish _ => 1

/-- The weight of all that is left to do. -/
noncomputable def pendingWeight : List Task → Nat
  | [] => 0
  | t :: ts => t.weight + pendingWeight ts

@[simp] theorem pendingWeight_nil : pendingWeight [] = 0 := rfl

@[simp] theorem pendingWeight_cons (t : Task) (ts : List Task) :
    pendingWeight (t :: ts) = t.weight + pendingWeight ts := rfl

@[simp] theorem pendingWeight_append (ts us : List Task) :
    pendingWeight (ts ++ us) = pendingWeight ts + pendingWeight us := by
  induction ts with
  | nil => simp
  | cons t ts ih => simp [ih, Nat.add_assoc]

/-- Visits weigh twice what they visit. -/
theorem pendingWeight_map_visit (es : List Expr) :
    pendingWeight (es.map visit) = 2 * pendingSize es := by
  induction es with
  | nil => rfl
  | cons e es ih => simp [ih, weight]; omega

/-- What a visit leaves to do: the children left to right, then the node itself. -/
def expand (e : Expr) (rest : List Task) : List Task :=
  e.children.map visit ++ finish e :: rest

/-- What a visit leaves to do weighs less than the visit. -/
theorem pendingWeight_expand_lt (e : Expr) (rest : List Task) :
    pendingWeight (expand e rest) < pendingWeight (visit e :: rest) := by
  have := pendingSize_children_lt e
  simp [expand, pendingWeight_map_visit, weight]
  omega

/-- Every task has a weight. -/
theorem weight_pos (t : Task) : 0 < t.weight := by
  cases t with
  | visit e => have := sizeOf_pos e; simp only [weight]; omega
  | finish e => exact Nat.one_pos

/-- A task carried out leaves less to do. -/
theorem pendingWeight_tail_lt (t : Task) (rest : List Task) :
    pendingWeight rest < pendingWeight (t :: rest) := by
  have := t.weight_pos
  simp only [pendingWeight_cons]
  omega

end Task

end FlatDae.Expr
