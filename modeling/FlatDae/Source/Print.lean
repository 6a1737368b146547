/-
Module: FlatDae.Source.Print
Purpose: The text of the parts of a model text, on one line and without parentheses; declarations
  are shown by their head only.
Main exports: Source.Expression.print, Source.AttributeSetting.print, Source.Equation.print
-/
import FlatDae.Decimal.Shortest
import FlatDae.Source.Tree

namespace FlatDae.Source

mutual

/-- Operands are set apart by blanks, arguments by a comma and a blank. -/
def Expression.print : Expression → String
  | .number _ value => Decimal.text value
  | .truth _ value => if value then "true" else "false"
  | .name _ name => name
  | .signed _ sign operand => sign.spelling ++ " " ++ operand.print
  | .binary _ op left right => left.print ++ " " ++ spelling op ++ " " ++ right.print
  | .call _ function args output =>
    let index := match output with
      | some k => "\x7b" ++ toString k ++ "\x7d"
      | none => ""
    function ++ "(" ++ printArguments args ++ ")" ++ index

/-- The arguments of a call. -/
def printArguments : List Expression → String
  | [] => ""
  | [e] => e.print
  | e :: es => e.print ++ ", " ++ printArguments es

end

/-- A text is shown between quotes, with nothing escaped. -/
def AttributeValue.print : AttributeValue → String
  | .text _ s => "\"" ++ s ++ "\""
  | .expression e => e.print

/-- An attribute with its value. -/
def AttributeSetting.print (a : AttributeSetting) : String := a.name ++ " = " ++ a.value.print

/-- Both sides, with a blank on either side of the equality sign. -/
def Equation.print (eq : Equation) : String := eq.lhs.print ++ " = " ++ eq.rhs.print

/-- A type with its base; the attributes are left out. -/
def TypeDeclaration.print (d : TypeDeclaration) : String := "type " ++ d.name ++ " = " ++ d.base

/-- A function by its name alone. -/
def FunctionDeclaration.print (d : FunctionDeclaration) : String := "function " ++ d.name

/-- A component with its type; qualifiers, attributes and binding are left out. -/
def Component.print (c : Component) : String := c.typeName ++ " " ++ c.name

/-- A model by its name alone. -/
def Model.print (m : Model) : String := "model " ++ m.name

end FlatDae.Source
