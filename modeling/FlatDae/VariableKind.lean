/-
Module: FlatDae.VariableKind
Purpose: The kinds of registered variables. Constants, parameters, inputs and discrete variables
  exist for every domain; the continuous variables are real and are told apart by the part they play
  in derivative relations.
Main exports: VariableKind, VariableKind.all, VariableKind.name, VariableKind.ofName?
-/
import FlatDae.Domain

namespace FlatDae

/-- What a registered variable is in the model. -/
inductive VariableKind where
  | constant (domain : Domain)
  /-- A parameter whose value is given by itself. -/
  | independentParameter (domain : Domain)
  /-- A parameter whose binding refers to other quantities. -/
  | dependentParameter (domain : Domain)
  /-- A continuous variable that is the derivative of another. -/
  | derivative
  /-- A continuous variable of which another is the derivative. -/
  | differentiated
  | input (domain : Domain)
  /-- An internal continuous variable without derivative relation. -/
  | algebraic
  | discrete (domain : Domain)
  /-- A continuous output without derivative relation. -/
  | output
deriving DecidableEq, Repr, Inhabited

namespace VariableKind

/-- The kind of a parameter, by whether its binding refers to other quantities. -/
def parameter (domain : Domain) (dependent : Bool) : VariableKind :=
  if dependent then .dependentParameter domain else .independentParameter domain

/-- All kinds in the order in which a model lists them. -/
def all : List VariableKind :=
  [.constant .real, .independentParameter .real, .dependentParameter .real,
   .constant .integer, .independentParameter .integer, .dependentParameter .integer,
   .constant .boolean, .independentParameter .boolean, .dependentParameter .boolean,
   .constant .string, .independentParameter .string, .dependentParameter .string,
   .derivative, .differentiated, .input .real, .algebraic, .discrete .real,
   .discrete .integer, .input .integer, .discrete .boolean, .input .boolean,
   .discrete .string, .input .string, .output]

/-- Every kind is listed. -/
theorem mem_all (kind : VariableKind) : kind ∈ all := by
  cases kind with
  | derivative => decide
  | differentiated => decide
  | algebraic => decide
  | output => decide
  | constant domain => cases domain <;> decide
  | independentParameter domain => cases domain <;> decide
  | dependentParameter domain => cases domain <;> decide
  | input domain => cases domain <;> decide
  | discrete domain => cases domain <;> decide

/-- Whether this is the kind of the constants of some domain. -/
def isConstant : VariableKind → Bool
  | .constant _ => true
  | _ => false

/-- Whether this is the kind of the independent parameters of some domain. -/
def isIndependentParameter : VariableKind → Bool
  | .independentParameter _ => true
  | _ => false

/-- Whether this is the kind of the dependent parameters of some domain. -/
def isDependentParameter : VariableKind → Bool
  | .dependentParameter _ => true
  | _ => false

/-- Whether a variable of this kind has a value before the model runs. -/
def isConstantOrParameter (kind : VariableKind) : Bool :=
  kind.isConstant || kind.isIndependentParameter || kind.isDependentParameter

/-- Whether a variable of this kind can stand on a side of a derivative relation: it is real,
    continuous and not an input. -/
def isLinkable : VariableKind → Bool
  | .algebraic => true
  | .output => true
  | .derivative => true
  | .differentiated => true
  | _ => false

/-- Whether a link still decides what the variable is. -/
def isUnlinked : VariableKind → Bool
  | .algebraic => true
  | .output => true
  | _ => false

/-- The domain part of a kind's name. -/
def domainName : Domain → String
  | .real => "REAL"
  | .integer => "INTEGER"
  | .boolean => "BOOLEAN"
  | .string => "STRING"

/-- The name of a kind. -/
def name : VariableKind → String
  | .constant domain => domainName domain ++ "_CONSTANT"
  | .independentParameter domain => domainName domain ++ "_PARAMETER_INDEPENDENT"
  | .dependentParameter domain => domainName domain ++ "_PARAMETER_DEPENDENT"
  | .derivative => "DERIVATIVE"
  | .differentiated => "DIFFERENTIATED"
  | .input domain => domainName domain ++ "_INPUT"
  | .algebraic => "REAL_ALGEBRAIC"
  | .discrete domain => domainName domain ++ "_DISCRETE"
  | .output => "OUTPUT"

/-- The kind of a given name, in upper or lower case. Only ASCII letters have two cases here. -/
def ofName? (text : String) : Option VariableKind :=
  all.find? fun kind => kind.name.toLower == text.toLower

end VariableKind

end FlatDae
