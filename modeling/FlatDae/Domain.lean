/-
Module: FlatDae.Domain
Purpose: What a variable ranges over, which way it is computed and how often it changes: the three
  declared properties on which everything else about a variable rests.
Main exports: Domain, Causality, Variability
-/

namespace FlatDae

/-- The set of values of a variable. -/
inductive Domain where
  | real
  | integer
  | boolean
  | string
deriving DecidableEq, Repr, Inhabited

namespace Domain

/-- The name of the domain, which is also that of its built-in type. -/
def name : Domain → String
  | .real => "Real"
  | .integer => "Integer"
  | .boolean => "Boolean"
  | .string => "String"

/-- The domain of a given name. -/
def ofName? : String → Option Domain
  | "Real" => some .real
  | "Integer" => some .integer
  | "Boolean" => some .boolean
  | "String" => some .string
  | _ => none

/-- Values of all domains but strings are numbers. -/
def isNumeric : Domain → Bool
  | .string => false
  | _ => true

end Domain

/-- Which way a variable is computed: from outside, for the outside, or neither. -/
inductive Causality where
  | input
  | output
  | internal
deriving DecidableEq, Repr, Inhabited

/-- The name of a causality. -/
def Causality.name : Causality → String
  | .input => "input"
  | .output => "output"
  | .internal => "internal"

/-- When a variable may change: never, between runs, at events, or at any time. -/
inductive Variability where
  | constant
  | parameter
  | discrete
  | continuous
deriving DecidableEq, Repr, Inhabited

/-- The name of a variability. -/
def Variability.name : Variability → String
  | .constant => "constant"
  | .parameter => "parameter"
  | .discrete => "discrete"
  | .continuous => "continuous"

end FlatDae
