/-
Module: FlatDae.Model.Basic
Purpose: A flat model of differential-algebraic equations: the variables registered in it, initial
  and other equations, functions, types and the values of its parameters, together with the store
  that its variables live in and the supply that its nodes come from. An index leads from the names of
  registered variables to their places. Operations that can fail are actions on the model; what an
  action changed before it failed stays changed.
Main exports: Model, ModelAction, Model.findVariable?, Model.representative?, Model.variablesOfKind
-/
import FlatDae.Classification
import FlatDae.ModelFunction
import FlatDae.TypeRegistry

namespace FlatDae

/-- A flat model. -/
structure Model where
  supply : Supply := {}
  /-- The independent variable. -/
  time : Option Expr := none
  /-- Every variable that there is, registered or not. -/
  store : Variables := {}
  /-- The registered variables, in the order of registration. -/
  registered : Array VarId := #[]
  /-- The places of the registered variables, under their names. -/
  names : Std.TreeMap String Nat := ∅
  initialEquations : Array Equation := #[]
  daeEquations : Array Equation := #[]
  /-- The derivative relations known from equations and from links of registered variables. -/
  relations : Array DerivativeRelation := #[]
  functions : FunctionTable := ∅
  types : TypeRegistry := {}
  /-- The values found by the last calculation. -/
  parameters : ParameterTable := {}
  /-- Whether nothing that the values rest on has been replaced or added since. -/
  parametersValid : Bool := false
deriving Inhabited

/-- An action on a model, which may fail. -/
abbrev ModelAction := Action Model

namespace Model

/-- Makes nodes from the model's supply. -/
def fresh {α : Type} (m : Model) (make : Fresh α) : α × Model :=
  let (made, supply) := make.run m.supply
  (made, { m with supply })

/-- Makes a variable, which is not registered yet. -/
def createVariable (m : Model) (new : Variable) : VarId × Model :=
  let (v, store) := m.store.create new
  (v, { m with store })

/-- Changes a variable, registered or not. -/
def modifyVariable (m : Model) (v : VarId) (f : Variable → Variable) : Model :=
  { m with store := m.store.modify v f }

/-- The registered variable called `name`, which may be an alias. -/
def findVariable? (m : Model) (name : String) : Option VarId := do
  m.registered[← m.names[name]?]?

/-- The registered variable whose symbol is the very node `symbol`. -/
def findBySymbol? (m : Model) (symbol : Expr) : Option VarId := do
  let v ← m.findVariable? (← symbol.name?)
  guard ((m.store.get v).symbol.same symbol)
  return v

/-- Follows alias links for at most `steps` steps. -/
def followAliases (store : Variables) : Nat → VarId → VarId
  | 0, v => v
  | steps + 1, v =>
    match (store.get v).aliasOf with
    | some link => followAliases store steps link.target
    | none => v

/-- The variable that stands for the variable called `name`: the end of its chain of aliases. The
    bound is met only by a circle of aliases. -/
def representative? (m : Model) (name : String) : Option VarId :=
  (m.findVariable? name).map (followAliases m.store m.registered.size)

/-- The registered variables of a kind, in the order of registration. -/
def variablesOfKind (m : Model) (kind : VariableKind) : List VarId :=
  m.registered.toList.filter fun v => (m.store.get v).kind == some kind

/-- The registered variables that are no aliases. -/
def modelVariables (m : Model) : List VarId :=
  m.registered.toList.filter fun v => !(m.store.get v).isAlias

/-- The registered variables that are aliases. -/
def aliasVariables (m : Model) : List VarId :=
  m.registered.toList.filter fun v => (m.store.get v).isAlias

/-- Adds what an equation says about derivatives to what is known. -/
def learnRelation (m : Model) (eq : Equation) : Model :=
  match DerivativeRelation.ofEquation? eq with
  | some relation => { m with relations := m.relations.push relation }
  | none => m

/-- Adds an equation that holds at the start. -/
def addInitialEquation (m : Model) (eq : Equation) : Model :=
  let m := m.learnRelation eq
  { m with initialEquations := m.initialEquations.push eq }

/-- Adds an equation that always holds. -/
def addDaeEquation (m : Model) (eq : Equation) : Model :=
  let m := m.learnRelation eq
  { m with daeEquations := m.daeEquations.push eq }

/-- The residual of all initial equations. -/
def initialResidual (m : Model) : Expr × Model :=
  m.fresh (Equation.stackResiduals m.initialEquations.toList)

/-- The residual of all other equations. -/
def daeResidual (m : Model) : Expr × Model :=
  m.fresh (Equation.stackResiduals m.daeEquations.toList)

/-- Puts a function under its own name, in place of any other of that name. -/
def setFunction (m : Model) (f : ModelFunction) : Model :=
  { m with functions := m.functions.insert f.name f, parametersValid := false }

/-- Carries out an action on the types of the model. -/
def onTypes {α : Type} (action : TypeAction α) : ModelAction α := fun m =>
  match action.run m.types with
  | .ok a types => .ok a { m with types }
  | .error error types => .error error { m with types }

/-- Adds a type whose name is not taken. -/
def addType (type : VariableType) : ModelAction Unit := onTypes (.add type)

end Model

end FlatDae
