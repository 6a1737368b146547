/-
Module: FlatDae.Source.Tree
Purpose: What a model text says, as a tree. Every part knows the byte offset at which it starts in
  the text; parentheses leave no trace but the shape they give. Names are not resolved here.
Main exports: Source.Expression, Source.Component, Source.Model, Source.Model.expressions
-/
import FlatDae.Operator

namespace FlatDae.Source

/-- Operators written in front of their operand. -/
inductive Sign where
  | minus
  | plus
  | not
deriving DecidableEq, Repr, Inhabited

/-- The spelling of a sign. -/
def Sign.spelling : Sign → String
  | .minus => "-"
  | .plus => "+"
  | .not => "not"

/-- The spelling of an operator in a text: the logical ones are words. -/
def spelling : BinaryOp → String
  | .and => "and"
  | .or => "or"
  | op => op.symbol

/-- An expression of a text. A binary operation starts where its left operand does. -/
inductive Expression where
  | number (start : Nat) (value : Float)
  | truth (start : Nat) (value : Bool)
  | name (start : Nat) (name : String)
  | signed (start : Nat) (sign : Sign) (operand : Expression)
  | binary (start : Nat) (op : BinaryOp) (left right : Expression)
  /-- A call; without `output` it means the first output. -/
  | call (start : Nat) (function : String) (args : List Expression) (output : Option Nat)
deriving Inhabited

/-- The offset at which an expression starts. -/
def Expression.start : Expression → Nat
  | .number start _ => start
  | .truth start _ => start
  | .name start _ => start
  | .signed start _ _ => start
  | .binary start _ _ _ => start
  | .call start _ _ _ => start

/-- The value given to an attribute. -/
inductive AttributeValue where
  | text (start : Nat) (s : String)
  | expression (e : Expression)
deriving Inhabited

/-- `name = value` in a modification. -/
structure AttributeSetting where
  start : Nat
  name : String
  value : AttributeValue
deriving Inhabited

/-- `type name = base(attributes);` -/
structure TypeDeclaration where
  start : Nat
  name : String
  base : String
  attributes : List AttributeSetting
deriving Inhabited

/-- `function name(params) = (outputs);` -/
structure FunctionDeclaration where
  start : Nat
  name : String
  params : List String
  outputs : List Expression
deriving Inhabited

/-- Words in front of the type of a component. -/
inductive Qualifier where
  | constant
  | parameter
  | discrete
  | input
  | output
deriving DecidableEq, Repr, Inhabited

/-- The spelling of a qualifier. -/
def Qualifier.spelling : Qualifier → String
  | .constant => "constant"
  | .parameter => "parameter"
  | .discrete => "discrete"
  | .input => "input"
  | .output => "output"

/-- All qualifiers. -/
def Qualifier.all : List Qualifier := [.constant, .parameter, .discrete, .input, .output]

/-- `alias target` or `alias -target`. -/
structure AliasClause where
  target : String
  negated : Bool
deriving DecidableEq, Repr, Inhabited

/-- `qualifiers typeName name(attributes) = binding;`, or with an alias in place of the binding. -/
structure Component where
  start : Nat
  qualifiers : List Qualifier
  typeName : String
  name : String
  attributes : List AttributeSetting
  binding : Option Expression
  aliasOf : Option AliasClause
deriving Inhabited

/-- `lhs = rhs;` -/
structure Equation where
  start : Nat
  lhs : Expression
  rhs : Expression
deriving Inhabited

/-- A whole model text. Declarations of one sort are kept together, in the order of the text. -/
structure Model where
  start : Nat
  name : String
  types : List TypeDeclaration
  functions : List FunctionDeclaration
  components : List Component
  initialEquations : List Equation
  equations : List Equation
deriving Inhabited

/-- The expressions that attributes are set to. -/
def settingExpressions (attributes : List AttributeSetting) : List Expression :=
  attributes.filterMap fun setting =>
    match setting.value with
    | .expression e => some e
    | .text _ _ => none

/-- Every expression that stands in a model text by itself. -/
def Model.expressions (m : Model) : List Expression :=
  m.types.flatMap (settingExpressions ·.attributes) ++
    m.functions.flatMap (·.outputs) ++
    m.components.flatMap (fun c => settingExpressions c.attributes ++ c.binding.toList) ++
    (m.initialEquations ++ m.equations).flatMap fun eq => [eq.lhs, eq.rhs]

end FlatDae.Source
