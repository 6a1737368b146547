/-
Module: FlatDae.VariableType
Purpose: Attributes and the types that carry them. A type has a domain and values for attributes;
  the built-in type of a domain is named after it and has a default for every attribute of the
  domain. Types are told apart by identity, since a registry keeps one object for every name.
Main exports: Attribute, Attributes, VariableType, VariableType.builtin, VariableType.print
-/
import FlatDae.Domain
import FlatDae.Expr.Print
import Std.Data.TreeMap

namespace FlatDae

/-- The value of an attribute. -/
inductive Attribute where
  | expr (e : Expr)
  | text (s : String)
deriving Inhabited

namespace Attribute

/-- The expression of an attribute that is one. -/
def expr? : Attribute → Option Expr
  | .expr e => some e
  | .text _ => none

/-- The text of an attribute that is one. -/
def text? : Attribute → Option String
  | .text s => some s
  | .expr _ => none

/-- Texts are printed between quotes, with nothing escaped. -/
def print : Attribute → String
  | .expr e => e.print
  | .text s => "\"" ++ s ++ "\""

end Attribute

/-- Attribute values under their names, which are kept in order. -/
abbrev Attributes := Std.TreeMap String Attribute

/-- The identity of a type. -/
abbrev TypeId := Nat

/-- A declared or built-in type of variables. -/
structure VariableType where
  id : TypeId
  name : String
  domain : Domain
  attributes : Attributes := ∅
deriving Inhabited

namespace VariableType

/-- The attributes of a domain with their default values. -/
def defaultAttributes : Domain → List (String × Attribute)
  | .real =>
    [("quantity", .text ""), ("unit", .text ""), ("displayUnit", .text ""),
     ("min", .expr .negInfinity), ("max", .expr .infinity), ("start", .expr .zero),
     ("fixed", .expr .zero), ("nominal", .expr .one)]
  | .integer =>
    [("quantity", .text ""), ("min", .expr .negInfinity), ("max", .expr .infinity),
     ("start", .expr .zero), ("fixed", .expr .zero)]
  | .boolean => [("quantity", .text ""), ("start", .expr .zero), ("fixed", .expr .zero)]
  | .string => [("quantity", .text ""), ("start", .text "")]

/-- The identity of a built-in type, below those of all declared types. -/
def builtinId : Domain → TypeId
  | .real => 0
  | .integer => 1
  | .boolean => 2
  | .string => 3

/-- The built-in type of a domain. -/
def builtin (domain : Domain) : VariableType :=
  { id := builtinId domain
    name := domain.name
    domain
    attributes := Std.TreeMap.ofList (defaultAttributes domain) }

/-- A new type without attributes. -/
def new (name : String) (domain : Domain) : Fresh VariableType := do
  return { id := ← Fresh.nodeId, name, domain }

/-- The type with another value for an attribute. -/
def withAttribute (type : VariableType) (name : String) (value : Attribute) : VariableType :=
  { type with attributes := type.attributes.insert name value }

/-- The value of an attribute. -/
def attribute? (type : VariableType) (name : String) : Option Attribute := type.attributes[name]?

/-- A type is printed with its attributes in the order of their names, each followed by a comma. -/
def print (type : VariableType) : String :=
  let attributes := type.attributes.toList.map fun (name, value) =>
    " " ++ name ++ " = " ++ value.print ++ ","
  type.domain.name ++ " type (" ++ type.name ++ ")" ++ String.join attributes

end VariableType

end FlatDae
