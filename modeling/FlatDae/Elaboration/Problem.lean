/-
Module: FlatDae.Elaboration.Problem
Purpose: What can be wrong with a text that follows the grammar, with the place at which it is
  reported and its wording.
Main exports: Problem, Problem.message, Located, Located.diagnostic
-/
import FlatDae.Diagnostic
import FlatDae.ModelError

namespace FlatDae.Elaboration

/-- The faults of a model text. -/
inductive Problem where
  | unknownBase (typeName base : String)
  | repeatedFunction (function : String)
  | repeatedInput (function : String)
  | repeatedComponent (component : String)
  | unknownType (typeName : String)
  | severalVariabilities (component : String)
  | inputAndOutput (component : String)
  | unknownVariable (name : String)
  | notAnInput (name function : String)
  | notLiteral (name typeName : String)
  /-- A built-in function has other than one argument, or an output is selected. -/
  | notOneArgument (function : String)
  | unknownFunction (function : String)
  | wrongArity (function : String) (expected got : Nat)
  | noOutput (function : String) (outputs selected : Nat)
  | aliasOfItself (component : String)
  | unknownAliasTarget (target : String)
  /-- The model refuses a type or variable. -/
  | refused (error : ModelError)
deriving DecidableEq, Repr

/-- The fault in words. -/
def Problem.message : Problem → String
  | .unknownBase typeName base =>
    s!"type {typeName} must extend Real, Integer, Boolean or String, not {base}"
  | .repeatedFunction function => s!"function {function} is declared more than once"
  | .repeatedInput function => s!"function {function} repeats an input name"
  | .repeatedComponent component => s!"{component} is declared more than once"
  | .unknownType typeName => s!"cannot find type {typeName}"
  | .severalVariabilities component => s!"{component} has more than one variability prefix"
  | .inputAndOutput component => s!"{component} cannot be both input and output"
  | .unknownVariable name => s!"cannot find variable {name}"
  | .notAnInput name function => s!"{name} is not an input of function {function}"
  | .notLiteral name typeName =>
    s!"attributes of type {typeName} must be literals, found {name}"
  | .notOneArgument function => s!"{function} takes exactly one argument"
  | .unknownFunction function => s!"cannot find function {function}"
  | .wrongArity function expected got =>
    s!"function {function} takes {expected} arguments, got {got}"
  | .noOutput function outputs selected =>
    s!"function {function} has {outputs} outputs, cannot select output {selected}"
  | .aliasOfItself component => s!"{component} cannot be an alias of itself"
  | .unknownAliasTarget target => s!"cannot find alias target {target}"
  | .refused error => error.message

/-- A fault with the byte offset of the part of the text that has it. -/
structure Located where
  problem : Problem
  start : Nat
deriving DecidableEq, Repr

/-- The fault as it is reported. -/
def Located.diagnostic (l : Located) : Diagnostic :=
  { text := l.problem.message, span := some { start := l.start, stop := l.start } }

end FlatDae.Elaboration
