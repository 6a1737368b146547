/-
Module: FlatDae.Model.Parameters
Purpose: The values of constants and parameters. Each numeric one is defined by an expression, its
  binding or else its start value; `Model.calculate` evaluates these in dependency order and records
  the values of dependent parameters as an attribute. `Model.evaluate` gives the value of any
  expression over them.
Main exports: Definition, Variable.value?, Variable.definition?, Model.definitions,
  Model.definitionOrder, Model.calculate, Model.evaluate
-/
import FlatDae.DependencyOrder
import FlatDae.Model.Basic

namespace FlatDae

/-- A variable with the expression that gives its value. -/
structure Definition where
  target : VarId
  name : String
  symbol : Expr
  value : Expr
  /-- Whether it is a dependent parameter. -/
  dependent : Bool
deriving Inhabited

namespace Variable

/-- Whether the variable is a dependent parameter. -/
def isDependentParameter (var : Variable) : Bool := var.kind.any (·.isDependentParameter)

/-- Whether the variable is a numeric constant or parameter. -/
def isTabled (var : Variable) : Bool :=
  var.kind.any (·.isConstantOrParameter) && var.domain.isNumeric

/-- The expression that gives the value of a constant or parameter. Dependent parameters are those
    with a binding that refers to something, so only the others may be without one. -/
def value? (var : Variable) : Option Expr :=
  if var.isDependentParameter then var.binding? else var.binding? <|> var.start?

/-- What defines the value of a variable, if it is a numeric constant or parameter. -/
def definition? (var : Variable) (v : VarId) : Except ModelError (Option Definition) :=
  if !var.isTabled then .ok none
  else
    match var.value? with
    | none => .error (.missingValue var.name)
    | some value =>
      .ok (some
        { target := v, name := var.name, symbol := var.symbol, value
          dependent := var.isDependentParameter })

end Variable

namespace Model

/-- The definition of a registered variable, if it is a numeric constant or parameter. -/
def definition? (m : Model) (v : VarId) : Except ModelError (Option Definition) :=
  (m.store.get v).definition? v

/-- The definitions of all numeric constants and parameters, in the order of registration. -/
def definitions (m : Model) : Except ModelError (Array Definition) := do
  let found ← m.registered.toList.mapM m.definition?
  return (found.filterMap (·)).toArray

/-- For each definition the positions of the definitions its value refers to. -/
def references (definitions : Array Definition) : Array (List Nat) :=
  let index : Std.HashMap NodeId Nat :=
    (definitions.zipIdx).foldl (fun index (d, i) => index.insert d.symbol.id i) ∅
  definitions.map fun d => d.value.symbols.filterMap fun s => index[s.id]?

/-- The definitions, each after those its value refers to. -/
def definitionOrder (definitions : Array Definition) : Except ModelError (List Definition) :=
  match dependencyOrder (references definitions) with
  | .ok order => .ok (order.toList.map fun i => definitions.getD i default)
  | .error cycle =>
    .error (.cyclicDependency (cycle.map fun i => (definitions.getD i default).name))

/-- The values known from a table, with the functions of the model. -/
def environment (m : Model) (table : ParameterTable) : Environment :=
  { table, call := m.functions.call [] }

/-- Evaluates a definition over the values found so far and adds its value to them. -/
def calculateDefinition (table : ParameterTable) (d : Definition) : ModelAction ParameterTable := do
  let value ← MonadExcept.ofExcept (((← get).environment table).evaluate d.value)
  if d.dependent then
    modify fun m =>
      let (node, m) := m.fresh (Fresh.constant value)
      m.modifyVariable d.target (·.withAttribute Variable.evaluatedBindingAttribute (.expr node))
  return table.push d.symbol value

/-- Finds the values of all numeric constants and parameters. Until all are found there are none. -/
def calculate : ModelAction Unit := do
  modify fun m => { m with parameters := {}, parametersValid := false }
  let definitions ← MonadExcept.ofExcept (← get).definitions
  let order ← MonadExcept.ofExcept (definitionOrder definitions)
  let table ← order.foldlM calculateDefinition {}
  modify fun m => { m with parameters := table, parametersValid := true }

/-- The value of an expression over the constants and parameters, whose values are found first if
    they are out of date. -/
def evaluate (e : Expr) : ModelAction Float := do
  if !(← get).parametersValid then calculate
  let m ← get
  MonadExcept.ofExcept ((m.environment m.parameters).evaluate e)

end Model

end FlatDae
