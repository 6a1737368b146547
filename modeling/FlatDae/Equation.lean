/-
Module: FlatDae.Equation
Purpose: Equations, the rows they contribute to a residual, and the derivative relations that can be
  read off them.
Main exports: Equation, Equation.residual, Equation.stackResiduals, DerivativeRelation,
  DerivativeRelation.ofEquation?
-/
import FlatDae.Expr.Print

namespace FlatDae

/-- `lhs = rhs`. -/
structure Equation where
  lhs : Expr
  rhs : Expr
deriving Inhabited

namespace Equation

/-- The row `rhs - lhs`, zero where the equation holds. -/
def residual (eq : Equation) : Fresh Expr := Fresh.binary .sub eq.rhs eq.lhs

/-- The rows of the equations, in order. -/
def stackResiduals (equations : List Equation) : Fresh Expr := do
  Fresh.vertcat (← equations.mapM residual)

/-- An equation is printed with a blank on either side of its sign. -/
def print (eq : Equation) : String := eq.lhs.print ++ " = " ++ eq.rhs.print

end Equation

/-- The symbol `derivative` is the time derivative of the symbol `differentiated`. -/
structure DerivativeRelation where
  derivative : Expr
  differentiated : Expr
deriving Inhabited

namespace DerivativeRelation

/-- The relation stated by an equation `d = der(x)` or `der(x) = d` between symbols. -/
def ofEquation? (eq : Equation) : Option DerivativeRelation := do
  let (derivative, der) := if eq.lhs.isSymbol then (eq.lhs, eq.rhs) else (eq.rhs, eq.lhs)
  guard derivative.isSymbol
  let differentiated ← der.derArgument?
  guard differentiated.isSymbol
  return { derivative, differentiated }

end DerivativeRelation

end FlatDae
