/-
Module: FlatDae.Expr.Symbols
Purpose: The symbols that an expression refers to, each node once, in the order in which they are
  first met from left to right.
Main exports: Expr.symbols, Expr.dependsOn
-/
import FlatDae.Expr.Traversal

namespace FlatDae.Expr

/-- Adds a node to those found if it is a symbol. -/
def collectSymbol (found : Array Expr) (e : Expr) : Array Expr :=
  if e.isSymbol then found.push e else found

/-- The symbols of an expression, each once. -/
def symbols (e : Expr) : List Expr := (foldNodes collectSymbol [e] ∅ #[]).toList

/-- Whether `symbol` is one of the expression's symbols. -/
def dependsOn (e symbol : Expr) : Bool := e.symbols.any (·.same symbol)

end FlatDae.Expr
