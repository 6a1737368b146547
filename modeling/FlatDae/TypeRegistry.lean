/-
Module: FlatDae.TypeRegistry
Purpose: The types of a model, one object for every name. A type named after a built-in one must
  have its domain, because it is then the type of every variable of that domain without a declared
  one. Adding and interning a type are actions on the registry, which may fail.
Main exports: TypeRegistry, TypeRegistry.builtin, TypeAction, TypeAction.add, TypeAction.intern,
  TypeAction.builtin
-/
import FlatDae.ModelError
import FlatDae.VariableType

namespace FlatDae

/-- Types under their names. -/
structure TypeRegistry where
  types : Std.TreeMap String VariableType := ∅
deriving Inhabited

namespace TypeRegistry

/-- The type of a given name. -/
def get? (registry : TypeRegistry) (name : String) : Option VariableType := registry.types[name]?

/-- The number of types. -/
def size (registry : TypeRegistry) : Nat := registry.types.size

/-- Whether there is no type. -/
def isEmpty (registry : TypeRegistry) : Bool := registry.types.isEmpty

/-- All types in the order of their names. -/
def toList (registry : TypeRegistry) : List VariableType := registry.types.toList.map Prod.snd

/-- Refuses a type that has the name of a built-in one and another domain. -/
def checkBuiltinName (type : VariableType) : Except ModelError Unit :=
  match Domain.ofName? type.name with
  | some domain =>
    if domain == type.domain then .ok () else .error (.builtinTypeName type.name type.domain)
  | none => .ok ()

/-- Stores a type under its own name. -/
def store (registry : TypeRegistry) (type : VariableType) : TypeRegistry :=
  { registry with types := registry.types.insert type.name type }

/-- The type for variables of a domain without a declared type: the one that has the domain's name,
    stored on first use. -/
def builtin (registry : TypeRegistry) (domain : Domain) : VariableType × TypeRegistry :=
  match registry.get? domain.name with
  | some registered => (registered, registry)
  | none => (.builtin domain, registry.store (.builtin domain))

end TypeRegistry

/-- An action on a registry, which may fail. -/
abbrev TypeAction := Action TypeRegistry

namespace TypeAction

/-- Adds a type whose name is not taken. -/
def add (type : VariableType) : TypeAction Unit := do
  MonadExcept.ofExcept (TypeRegistry.checkBuiltinName type)
  if (← get).types.contains type.name then throw (.duplicateType type.name)
  modify (·.store type)

/-- The type that the registry has for a declared type: the one of its name, or the declared type
    itself, which is then stored. -/
def intern (declared : VariableType) : TypeAction VariableType := do
  match (← get).get? declared.name with
  | some registered => return registered
  | none =>
    MonadExcept.ofExcept (TypeRegistry.checkBuiltinName declared)
    modify (·.store declared)
    return declared

/-- The type for variables of a domain without a declared type. -/
def builtin (domain : Domain) : TypeAction VariableType := modifyGet (·.builtin domain)

end TypeAction

namespace TypeRegistry

/-- What an action answers, with the registry after it, if it succeeds. -/
def outcome {α : Type} (registry : TypeRegistry) (action : TypeAction α) :
    Except ModelError (α × TypeRegistry) :=
  match action.run registry with
  | .ok a larger => .ok (a, larger)
  | .error error _ => .error error

/-- The registry with one more type. -/
def add (registry : TypeRegistry) (type : VariableType) : Except ModelError TypeRegistry :=
  (registry.outcome (.add type)).map (·.2)

/-- The type for a declared type, with the registry that has it. -/
def intern (registry : TypeRegistry) (declared : VariableType) :
    Except ModelError (VariableType × TypeRegistry) :=
  registry.outcome (.intern declared)

end TypeRegistry

end FlatDae
