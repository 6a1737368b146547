/-
Module: FlatDae.Expr.Basic
Purpose: Expression graphs. An `Expr` is the tree that a graph unfolds to, and every node carries
  the identity it has in the graph: two occurrences of one identity are one shared node. Symbols are
  told apart by identity, so two symbols of one name are two symbols. `Fresh` is the supply of
  identities that new nodes are made from.
Main exports: NodeId, Expr, Expr.id, Expr.same, Expr.children, Expr.rows, Supply, Fresh
-/
import FlatDae.Operator

namespace FlatDae

/-- The identity of a node. -/
abbrev NodeId := Nat

/-- A node of an expression graph with everything below it. -/
inductive Expr where
  | constant (id : NodeId) (value : Float)
  | symbol (id : NodeId) (name : String)
  | unary (id : NodeId) (op : UnaryOp) (child : Expr)
  | binary (id : NodeId) (op : BinaryOp) (left right : Expr)
  /-- The time derivative of `child`. -/
  | der (id : NodeId) (child : Expr)
  /-- The output numbered `output` of the model function `function` over `args`. -/
  | call (id : NodeId) (function : String) (args : List Expr) (output : Nat)
  /-- Rows stacked on each other; without rows it is the empty expression. -/
  | vertcat (id : NodeId) (rows : List Expr)
deriving Inhabited

namespace Expr

/-- The identity of the topmost node. -/
def id : Expr → NodeId
  | .constant id _ => id
  | .symbol id _ => id
  | .unary id _ _ => id
  | .binary id _ _ _ => id
  | .der id _ => id
  | .call id _ _ _ => id
  | .vertcat id _ => id

/-- Whether two expressions are one node. -/
def same (a b : Expr) : Bool := a.id == b.id

/-- The nodes directly below the topmost one, left to right. -/
def children : Expr → List Expr
  | .constant _ _ => []
  | .symbol _ _ => []
  | .unary _ _ child => [child]
  | .binary _ _ left right => [left, right]
  | .der _ child => [child]
  | .call _ _ args _ => args
  | .vertcat _ rows => rows

/-- Whether the topmost node is a constant. -/
def isConstant : Expr → Bool
  | .constant _ _ => true
  | _ => false

/-- The value of a constant. -/
def value? : Expr → Option Float
  | .constant _ value => some value
  | _ => none

/-- Whether the topmost node is a symbol. -/
def isSymbol : Expr → Bool
  | .symbol _ _ => true
  | _ => false

/-- The name of a symbol. -/
def name? : Expr → Option String
  | .symbol _ name => some name
  | _ => none

/-- The `x` of `der(x)`. -/
def derArgument? : Expr → Option Expr
  | .der _ child => some child
  | _ => none

mutual

/-- The number of rows: everything but a stack is one row. -/
def rows : Expr → Nat
  | .vertcat _ stacked => rowsOfAll stacked
  | _ => 1

/-- The rows of all the expressions together. -/
def rowsOfAll : List Expr → Nat
  | [] => 0
  | e :: es => e.rows + rowsOfAll es

end

/-- Whether the expression has no row. -/
def isEmpty (e : Expr) : Bool := e.rows == 0

/-! ### Shared constants

A few constants occur in every model. They are nodes with identities of their own, below those that
a supply hands out. -/

/-- The shared node of zero, which is also the truth value `false`. -/
def zero : Expr := .constant 0 0.0

/-- The shared node of one. -/
def one : Expr := .constant 1 1.0

/-- The shared node of positive infinity. -/
def infinity : Expr := .constant 2 (1.0 / 0.0)

/-- The shared node of negative infinity. -/
def negInfinity : Expr := .constant 3 (-1.0 / 0.0)

end Expr

/-! ### New nodes -/

/-- The identities not yet given to any node: `next` and all above it. -/
structure Supply where
  next : NodeId := 4
deriving Repr, Inhabited

/-- Computations that make new nodes. -/
abbrev Fresh := StateM Supply

namespace Fresh

/-- An identity that no node has. -/
def nodeId : Fresh NodeId :=
  modifyGet fun supply => (supply.next, { supply with next := supply.next + 1 })

/-- A new constant. -/
def constant (value : Float) : Fresh Expr := do return .constant (← nodeId) value

/-- A new symbol, different from every other whatever its name. -/
def symbol (name : String) : Fresh Expr := do return .symbol (← nodeId) name

/-- A new unary operation. -/
def unary (op : UnaryOp) (child : Expr) : Fresh Expr := do return .unary (← nodeId) op child

/-- A new binary operation. -/
def binary (op : BinaryOp) (left right : Expr) : Fresh Expr := do
  return .binary (← nodeId) op left right

/-- A new derivative. -/
def der (child : Expr) : Fresh Expr := do return .der (← nodeId) child

/-- A new function call. -/
def call (function : String) (args : List Expr) (output : Nat) : Fresh Expr := do
  return .call (← nodeId) function args output

/-- A new stack of rows. -/
def vertcat (rows : List Expr) : Fresh Expr := do return .vertcat (← nodeId) rows

end Fresh

end FlatDae
