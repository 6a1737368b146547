/-
Module: FlatDae.Elaboration.Expression
Purpose: From the expressions of a text to expression graphs. Names mean what their scope says; the
  symbol of a variable or input is one node wherever it occurs. Faults are collected, and as many
  parts as possible are looked at before an expression is given up.
Main exports: Scope, Signature, Progress, Elaborating, elaborateExpression, elaborateAttributes
-/
import FlatDae.Elaboration.Problem
import FlatDae.Source.Tree
import FlatDae.VariableType

namespace FlatDae.Elaboration

/-- Symbols under their names. -/
abbrev Symbols := Std.TreeMap String Expr

/-- Where a name of an expression is looked up. -/
inductive Scope where
  /-- The components of the model and the time variable. -/
  | model (symbols : Symbols)
  /-- The inputs of a function. -/
  | function (name : String) (inputs : Symbols)
  /-- A type, in which no name means anything. -/
  | type (name : String)

/-- How many inputs and outputs a function has. -/
structure Signature where
  inputs : Nat
  outputs : Nat
deriving DecidableEq, Repr

/-- The functions declared in a text. -/
abbrev Signatures := Std.TreeMap String Signature

/-- What grows while expressions are built: the nodes made and the faults found. -/
structure Progress where
  supply : Supply
  problems : Array Located := #[]

/-- Building with faults collected on the way. -/
abbrev Elaborating := StateM Progress

/-- Makes a node. -/
def make {α : Type} (new : Fresh α) : Elaborating α :=
  modifyGet fun progress =>
    let (made, supply) := new.run progress.supply
    (made, { progress with supply })

/-- Records a fault. -/
def report (start : Nat) (problem : Problem) : Elaborating Unit :=
  modify fun progress => { progress with problems := progress.problems.push { problem, start } }

/-- Records a fault for which there is nothing to build. -/
def refuse {α : Type} (start : Nat) (problem : Problem) : Elaborating (Option α) := do
  report start problem
  return none

/-- The symbol that a name stands for. -/
def Scope.find? : Scope → String → Option Expr
  | .model symbols, name => symbols[name]?
  | .function _ inputs, name => inputs[name]?
  | .type _, _ => none

/-- The fault of a name that stands for nothing. -/
def Scope.unresolved : Scope → String → Problem
  | .model _, name => .unknownVariable name
  | .function owner _, name => .notAnInput name owner
  | .type owner, name => .notLiteral name owner

/-- Looks a name up. -/
def lookUp (scope : Scope) (start : Nat) (name : String) : Elaborating (Option Expr) :=
  match scope.find? name with
  | some symbol => return some symbol
  | none => refuse start (scope.unresolved name)

/-- A call over arguments that are built. The built-in functions and `der` go before declared
    functions of the same names. -/
def elaborateCall (signatures : Signatures) (start : Nat) (function : String) (args : List Expr)
    (output : Option Nat) : Elaborating (Option Expr) := do
  let builtin := UnaryOp.ofName? function
  if builtin.isSome || function == "der" then
    match args, output with
    | [arg], none =>
      match builtin with
      | some op => return some (← make (Fresh.unary op arg))
      | none => return some (← make (Fresh.der arg))
    | _, _ => refuse start (.notOneArgument function)
  else
    match signatures[function]? with
    | none => refuse start (.unknownFunction function)
    | some signature =>
      let selected := output.getD 0
      if args.length != signature.inputs then
        refuse start (.wrongArity function signature.inputs args.length)
      else if signature.outputs ≤ selected then
        refuse start (.noOutput function signature.outputs selected)
      else
        return some (← make (Fresh.call function args selected))

/-- All of the values, if every one is there. -/
def allPresent {α : Type} : List (Option α) → Option (List α)
  | [] => some []
  | x :: xs => do return (← x) :: (← allPresent xs)

mutual

/-- Builds an expression. Both operands of an operator and all arguments of a call are looked at, so
    that each of their faults is found; what a fault leaves out is not built. -/
def elaborateExpression (signatures : Signatures) (scope : Scope) :
    Source.Expression → Elaborating (Option Expr)
  | .number _ value => return some (← make (Fresh.constant value))
  | .truth _ value => return some (← make (Fresh.constant (truthValue value)))
  | .name start name => lookUp scope start name
  | .signed _ sign operand => do
    match ← elaborateExpression signatures scope operand with
    | none => return none
    | some child =>
      match sign with
      | .minus => return some (← make (Fresh.unary .negate child))
      | .plus => return some child
      | .not => return some (← make (Fresh.unary .not child))
  | .binary _ op left right => do
    let left ← elaborateExpression signatures scope left
    let right ← elaborateExpression signatures scope right
    match left, right with
    | some left, some right => return some (← make (Fresh.binary op left right))
    | _, _ => return none
  | .call start function args output => do
    match allPresent (← elaborateAll signatures scope args) with
    | none => return none
    | some args => elaborateCall signatures start function args output

/-- Builds each of the expressions. -/
def elaborateAll (signatures : Signatures) (scope : Scope) :
    List Source.Expression → Elaborating (List (Option Expr))
  | [] => return []
  | e :: es => do
    let built ← elaborateExpression signatures scope e
    return built :: (← elaborateAll signatures scope es)

end

/-- Builds the expressions up to the first that has a fault. -/
def elaborateInTurn (signatures : Signatures) (scope : Scope) :
    List Source.Expression → Elaborating (Option (List Expr))
  | [] => return some []
  | e :: es => do
    match ← elaborateExpression signatures scope e with
    | none => return none
    | some built =>
      match ← elaborateInTurn signatures scope es with
      | none => return none
      | some more => return some (built :: more)

/-- Builds the value of one attribute. -/
def elaborateAttribute (signatures : Signatures) (scope : Scope) :
    Source.AttributeValue → Elaborating (Option Attribute)
  | .text _ s => return some (.text s)
  | .expression e => return (← elaborateExpression signatures scope e).map .expr

/-- Builds the values of attributes in order; those with a fault are left out. -/
def elaborateAttributes (signatures : Signatures) (scope : Scope) :
    List Source.AttributeSetting → Elaborating (List (String × Attribute))
  | [] => return []
  | setting :: settings => do
    let value ← elaborateAttribute signatures scope setting.value
    let more ← elaborateAttributes signatures scope settings
    match value with
    | some value => return (setting.name, value) :: more
    | none => return more

end FlatDae.Elaboration
