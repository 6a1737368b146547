/-
Module: FlatDae.Classification
Purpose: The kind of a variable. It follows from domain, variability and causality; a parameter is
  dependent if its binding mentions any symbol, and a real continuous variable that is not an input
  is also told apart by its derivative relations. Being a derivative counts before having one.
Main exports: Classification, derivativeRole, isDependent, classify
-/
import FlatDae.Equation
import FlatDae.Expr.Symbols
import FlatDae.ModelError
import FlatDae.Variable

namespace FlatDae

/-- The part a variable plays in a derivative relation, with the symbol on the other side. -/
inductive DerivativeRole where
  | none
  | derivativeOf (differentiated : Expr)
  | differentiatedBy (derivative : Expr)

/-- The symbol on the other side of the relation. -/
def DerivativeRole.partner? : DerivativeRole → Option Expr
  | .none => Option.none
  | .derivativeOf differentiated => some differentiated
  | .differentiatedBy derivative => some derivative

/-- The outcome of a classification. -/
structure Classification where
  kind : VariableKind
  /-- The symbol on the other side of the variable's derivative relation. -/
  partner : Option Expr

/-- The role of a variable. A link of its own counts before the relations, of which the first that
    mentions its symbol counts. -/
def derivativeRole (store : Variables) (v : Variable) (relations : Array DerivativeRelation) :
    DerivativeRole :=
  match v.differentiated with
  | some differentiated => .derivativeOf (store.get differentiated).symbol
  | none =>
    match relations.find? (·.derivative.same v.symbol) with
    | some relation => .derivativeOf relation.differentiated
    | none =>
      match v.derivative with
      | some derivative => .differentiatedBy (store.get derivative).symbol
      | none =>
        match relations.find? (·.differentiated.same v.symbol) with
        | some relation => .differentiatedBy relation.derivative
        | none => .none

/-- Whether the binding of a variable refers to any other quantity. -/
def isDependent (v : Variable) : Bool :=
  match v.binding? with
  | some binding => !binding.symbols.isEmpty
  | none => false

/-- The kind of a variable, given the derivative relations known so far. Continuous variables are
    real. -/
def classify (store : Variables) (v : Variable) (relations : Array DerivativeRelation) :
    Except ModelError Classification :=
  match v.variability, v.domain, v.causality with
  | .constant, domain, _ => .ok { kind := .constant domain, partner := none }
  | .parameter, domain, _ =>
    .ok { kind := .parameter domain (isDependent v), partner := none }
  | .discrete, domain, .input => .ok { kind := .input domain, partner := none }
  | .discrete, domain, _ => .ok { kind := .discrete domain, partner := none }
  | .continuous, .real, .input => .ok { kind := .input .real, partner := none }
  | .continuous, .real, causality =>
    let role := derivativeRole store v relations
    let kind := match role with
      | .derivativeOf _ => .derivative
      | .differentiatedBy _ => .differentiated
      | .none => if causality == .output then .output else .algebraic
    .ok { kind, partner := role.partner? }
  | .continuous, domain, _ => .error (.invalidVariability v.name domain .continuous)

end FlatDae
