/-
Module: FlatDae.ModelError
Purpose: What can go wrong with a model. A configuration error lies in the way the model is put
  together, an evaluation error in the expression whose value is asked for. The wording of every
  error is in `ModelError.message`. What fails in the course of an action leaves behind whatever the
  action had changed before.
Main exports: FunctionFault, ModelError, ModelError.isConfiguration, ModelError.message, Action
-/
import FlatDae.Domain

namespace FlatDae

/-- Why a function call has no value. -/
inductive FunctionFault where
  /-- The function is called from inside its own call. -/
  | recursiveCall
  | notInModel
  | wrongArity (expected got : Nat)
  | noOutput (output : Nat)
deriving DecidableEq, Repr

/-- The fault in words. -/
def FunctionFault.message : FunctionFault → String
  | .recursiveCall => "recursive call"
  | .notInModel => "no such function in the model"
  | .wrongArity expected got => s!"expected {expected} arguments, got {got}"
  | .noOutput output => s!"has no output {output}"

/-- The causes of failure of building a model and of evaluating expressions over it. -/
inductive ModelError where
  | duplicateVariable (name : String)
  | duplicateType (name : String)
  | invalidVariability (variableName : String) (domain : Domain) (variability : Variability)
  | typeMismatch (variableName typeName : String) (expected found : Domain)
  /-- A type is named after a built-in one and has another domain. -/
  | builtinTypeName (typeName : String) (domain : Domain)
  /-- The names along the cycle, each referring to the next; the last is the first again. -/
  | cyclicDependency (names : List String)
  | missingValue (name : String)
  /-- The symbol has no value; `expression` is the text of what was to be evaluated. -/
  | unresolved (symbol expression : String)
  | nonNumeric (expression : String)
  | functionFault (name : String) (fault : FunctionFault)
deriving DecidableEq, Repr

namespace ModelError

/-- Whether the error lies in the model itself; otherwise it lies in an evaluation. -/
def isConfiguration : ModelError → Bool
  | .unresolved _ _ => false
  | .nonNumeric _ => false
  | .functionFault _ _ => false
  | _ => true

/-- The error in words. -/
def message : ModelError → String
  | .duplicateVariable name => s!"a variable named {name} is already in the model"
  | .duplicateType name => s!"a variable type named {name} is already in the model"
  | .invalidVariability variableName domain variability =>
    s!"{domain.name} variable {variableName} cannot have {variability.name} variability"
  | .typeMismatch variableName typeName expected found =>
    s!"variable {variableName} is {expected.name} but its declared type {typeName} is {found.name}"
  | .builtinTypeName typeName domain =>
    s!"type {typeName} is built in and cannot be declared as {domain.name}"
  | .cyclicDependency names =>
    "cyclic dependency between parameters: " ++ " -> ".intercalate names
  | .missingValue name =>
    s!"parameter {name} has neither a binding expression nor a start value"
  | .unresolved symbol expression =>
    s!"cannot evaluate {expression}: {symbol} has no known value"
  | .nonNumeric expression => s!"{expression} does not reduce to a number"
  | .functionFault name fault => s!"function {name}: {fault.message}"

end ModelError

/-- An action on a state, which may fail; what it changed before it failed stays changed. -/
abbrev Action (σ : Type) := EStateM ModelError σ

end FlatDae
