/-
Module: FlatDae.Variable
Purpose: Variables and the store they live in. Variables refer to each other as derivatives and as
  aliases, also in circles, so a variable is known by its identity in a store, and links are
  identities. A variable that is not registered in the model exists all the same.
Main exports: VarId, Alias, Variable, Variable.attribute?, Variables, Variables.get,
  Variables.modify
-/
import FlatDae.VariableKind
import FlatDae.VariableType

namespace FlatDae

/-- The identity of a variable. -/
structure VarId where
  index : Nat
deriving DecidableEq, Repr, Inhabited, Hashable

/-- The variable that another one equals, up to sign. -/
structure Alias where
  target : VarId
  negated : Bool
deriving DecidableEq, Repr

/-- A modelled quantity. It goes by the text of the expression that stands for it in equations,
    which is a symbol for every variable of a model text. -/
structure Variable where
  symbol : Expr
  name : String := symbol.print
  name_eq : name = symbol.print := by rfl
  domain : Domain
  causality : Causality
  variability : Variability
  declaredType : Option VariableType := none
  /-- The variable's own attributes; the declared type has more. -/
  attributes : Attributes := ∅
  /-- The variable that is the derivative of this one. -/
  derivative : Option VarId := none
  /-- The variable of which this one is the derivative. -/
  differentiated : Option VarId := none
  aliasOf : Option Alias := none
  /-- The kind given on registration. -/
  kind : Option VariableKind := none

/-- The blank variable that unknown identities read as. -/
instance : Inhabited Variable where
  default :=
    { symbol := .zero, domain := .real, causality := .internal, variability := .continuous }

namespace Variable

/-- The attribute that holds the expression a variable is bound to. -/
def bindingAttribute : String := "bindingExpression"

/-- The attribute that holds the value found for the binding of a dependent parameter. -/
def evaluatedBindingAttribute : String := "evaluatedBindingExpression"

/-- The attribute that holds the value at the start. -/
def startAttribute : String := "start"

/-- The value of an attribute of the variable, or else of its declared type. -/
def attribute? (v : Variable) (name : String) : Option Attribute :=
  v.attributes[name]? <|> v.declaredType.bind (·.attribute? name)

/-- Whether the variable itself has the attribute. -/
def hasOwnAttribute (v : Variable) (name : String) : Bool := v.attributes.contains name

/-- The variable with another value for an attribute of its own. -/
def withAttribute (v : Variable) (name : String) (value : Attribute) : Variable :=
  { v with attributes := v.attributes.insert name value }

/-- The expression the variable is bound to; a text is no binding. -/
def binding? (v : Variable) : Option Expr := v.attributes[bindingAttribute]?.bind Attribute.expr?

/-- The value at the start, which the declared type may give; a text is no value, and a text of the
    variable's own hides the type's value. -/
def start? (v : Variable) : Option Expr := (v.attribute? startAttribute).bind Attribute.expr?

/-- Whether the variable stands for another one. -/
def isAlias (v : Variable) : Bool := v.aliasOf.isSome

end Variable

/-- All variables that there are. -/
structure Variables where
  cells : Array Variable := #[]
deriving Inhabited

namespace Variables

/-- The variable of an identity. Identities come from `create`; any other reads as a blank one. -/
def get (store : Variables) (v : VarId) : Variable := store.cells.getD v.index default

/-- Changes one variable. -/
def modify (store : Variables) (v : VarId) (f : Variable → Variable) : Variables :=
  { store with cells := store.cells.modify v.index f }

/-- Adds a variable and gives it an identity. -/
def create (store : Variables) (new : Variable) : VarId × Variables :=
  (⟨store.cells.size⟩, { store with cells := store.cells.push new })

/-- A variable is printed by its symbol, its alias target, its type and its own attributes, one to a
    line. -/
def print (store : Variables) (v : VarId) : String :=
  let shown := store.get v
  let target := match shown.aliasOf with
    | some a => ", alias: " ++ (store.get a.target).symbol.print
    | none => ""
  let type := match shown.declaredType with
    | some type => ", declaredType : " ++ type.name
    | none => ""
  let attributes := shown.attributes.toList.map fun (name, value) =>
    "\n\t" ++ name ++ " = " ++ value.print
  let heading := if attributes.isEmpty then "" else ", attributes:"
  shown.symbol.print ++ target ++ type ++ heading ++ String.join attributes

end Variables

end FlatDae
