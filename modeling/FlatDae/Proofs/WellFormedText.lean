/-
Module: FlatDae.Proofs.WellFormedText
Purpose: Which model texts are well formed. The rules are stated over the tree of the text alone: what
  names mean follows from the declarations that there are, wherever in the text they stand, and what the
  words in front of a type declare is said word by word.
Main exports: Source.Expression.WellFormed, Source.Component.DeclaresVariability,
  Source.Component.DeclaresCausality, Source.Model.WellFormed
-/
import FlatDae.Elaboration.Model

namespace FlatDae.Source

open Elaboration (timeName)

/-! ### Expressions -/

/-- Whether calls under a name are calls of an operation that there is without any declaration. -/
def IsBuiltin (function : String) : Prop :=
  function = "der" ∨ (UnaryOp.ofName? function).isSome = true

/-- The rules for expressions in which the `known` names mean something, and in which functions are
    called that are declared with so many inputs and so many outputs. -/
inductive Expression.WellFormed (declares : String → Nat → Nat → Prop) (known : String → Prop) :
    Expression → Prop where
  | number (start : Nat) (value : Float) : WellFormed declares known (.number start value)
  | truth (start : Nat) (value : Bool) : WellFormed declares known (.truth start value)
  | name (start : Nat) {name : String} (hknown : known name) :
      WellFormed declares known (.name start name)
  | signed (start : Nat) (sign : Sign) {operand : Expression}
      (hoperand : WellFormed declares known operand) :
      WellFormed declares known (.signed start sign operand)
  | binary (start : Nat) (op : BinaryOp) {left right : Expression}
      (hleft : WellFormed declares known left) (hright : WellFormed declares known right) :
      WellFormed declares known (.binary start op left right)
  /-- Operations without a declaration take one argument and have no output to select. -/
  | builtin (start : Nat) {function : String} {arg : Expression} (hbuiltin : IsBuiltin function)
      (harg : WellFormed declares known arg) :
      WellFormed declares known (.call start function [arg] none)
  /-- Without a selection the first output is meant. -/
  | declared (start : Nat) {function : String} {args : List Expression} {output : Option Nat}
      {inputs outputs : Nat} (hbuiltin : ¬ IsBuiltin function)
      (hdeclares : declares function inputs outputs)
      (hargs : ∀ arg ∈ args, WellFormed declares known arg) (hlength : args.length = inputs)
      (houtput : output.getD 0 < outputs) :
      WellFormed declares known (.call start function args output)

namespace Expression

variable {declares : String → Nat → Nat → Prop} {known : String → Prop} {start : Nat}

theorem wellFormed_name_iff {name : String} :
    (Expression.name start name).WellFormed declares known ↔ known name := by
  constructor
  · rintro ⟨⟩
    assumption
  · exact fun hknown => .name start hknown

theorem wellFormed_signed_iff {sign : Sign} {operand : Expression} :
    (Expression.signed start sign operand).WellFormed declares known ↔
      operand.WellFormed declares known := by
  constructor
  · rintro ⟨⟩
    assumption
  · exact fun hoperand => .signed start sign hoperand

theorem wellFormed_binary_iff {op : BinaryOp} {left right : Expression} :
    (Expression.binary start op left right).WellFormed declares known ↔
      left.WellFormed declares known ∧ right.WellFormed declares known := by
  constructor
  · rintro ⟨⟩
    exact ⟨‹_›, ‹_›⟩
  · exact fun ⟨hleft, hright⟩ => .binary start op hleft hright

/-- What a call asks for beside well formed arguments. -/
def CallFits (declares : String → Nat → Nat → Prop) (function : String) (args : Nat)
    (output : Option Nat) : Prop :=
  (IsBuiltin function ∧ args = 1 ∧ output = none) ∨
  (¬ IsBuiltin function ∧ ∃ outputs, declares function args outputs ∧ output.getD 0 < outputs)

theorem callFits_builtin_iff {function : String} {args : Nat} {output : Option Nat}
    (h : IsBuiltin function) : CallFits declares function args output ↔ args = 1 ∧ output = none := by
  simp [CallFits, h]

theorem callFits_declared_iff {function : String} {args : Nat} {output : Option Nat}
    (h : ¬ IsBuiltin function) : CallFits declares function args output ↔
      ∃ outputs, declares function args outputs ∧ output.getD 0 < outputs := by
  simp [CallFits, h]

theorem wellFormed_call_iff {function : String} {args : List Expression} {output : Option Nat} :
    (Expression.call start function args output).WellFormed declares known ↔
      (∀ arg ∈ args, arg.WellFormed declares known) ∧
        CallFits declares function args.length output := by
  constructor
  · rintro ⟨⟩
    case builtin arg harg hbuiltin =>
      refine ⟨?_, Or.inl ⟨hbuiltin, rfl, rfl⟩⟩
      intro arg' harg'
      rw [List.mem_singleton.1 harg']
      exact harg
    case declared inputs outputs hbuiltin hdeclares hargs hlength houtput =>
      exact ⟨hargs, Or.inr ⟨hbuiltin, outputs, hlength ▸ hdeclares, houtput⟩⟩
  · rintro ⟨hargs, ⟨hbuiltin, hlength, rfl⟩ | ⟨hbuiltin, outputs, hdeclares, houtput⟩⟩
    · obtain ⟨arg, rfl⟩ := List.length_eq_one_iff.1 hlength
      exact .builtin start hbuiltin (hargs arg List.mem_cons_self)
    · exact .declared start hbuiltin hdeclares hargs rfl houtput

end Expression

/-! ### Declarations -/

/-- The rules for a type: it extends a built-in one, the one of its own name if there is such, and
    values of its attributes contain no names. -/
structure TypeDeclaration.WellFormed (d : TypeDeclaration) : Prop where
  base : (Domain.ofName? d.base).isSome = true
  builtinName : ∀ domain, Domain.ofName? d.name = some domain → Domain.ofName? d.base = some domain
  attributes : ∀ e ∈ settingExpressions d.attributes,
    e.WellFormed (fun _ _ _ => False) fun _ => False

/-- The rules for a function in a text with declared functions. -/
structure FunctionDeclaration.WellFormed (declares : String → Nat → Nat → Prop)
    (d : FunctionDeclaration) : Prop where
  params : d.params.Nodup
  outputs : ∀ e ∈ d.outputs, e.WellFormed declares (· ∈ d.params)

/-- A word for how a component may vary. -/
def Qualifier.IsVariability (q : Qualifier) : Prop := q = .constant ∨ q = .parameter ∨ q = .discrete

instance : DecidablePred Qualifier.IsVariability := fun q =>
  inferInstanceAs (Decidable (q = .constant ∨ q = .parameter ∨ q = .discrete))

/-- How a component of a domain may vary by the words in front of its type. Without such a word a real one
    is continuous and any other is discrete. -/
def Component.DeclaresVariability (c : Component) (domain : Domain) : Variability → Prop
  | .constant => .constant ∈ c.qualifiers ∧ .parameter ∉ c.qualifiers ∧ .discrete ∉ c.qualifiers
  | .parameter => .parameter ∈ c.qualifiers ∧ .constant ∉ c.qualifiers ∧ .discrete ∉ c.qualifiers
  | .discrete => .constant ∉ c.qualifiers ∧ .parameter ∉ c.qualifiers ∧
      (.discrete ∈ c.qualifiers ∨ domain ≠ .real)
  | .continuous => .constant ∉ c.qualifiers ∧ .parameter ∉ c.qualifiers ∧ .discrete ∉ c.qualifiers ∧
      domain = .real

/-- Whether a component is an input or an output by the words in front of its type. -/
def Component.DeclaresCausality (c : Component) : Causality → Prop
  | .input => .input ∈ c.qualifiers ∧ .output ∉ c.qualifiers
  | .output => .output ∈ c.qualifiers ∧ .input ∉ c.qualifiers
  | .internal => .input ∉ c.qualifiers ∧ .output ∉ c.qualifiers

/-- The rules for the words in front of the name of a component, in a text with declared types. -/
structure Component.HeadWellFormed (isType : String → Prop) (c : Component) : Prop where
  type : (Domain.ofName? c.typeName).isSome = true ∨ isType c.typeName
  variability : c.qualifiers.countP (·.IsVariability) ≤ 1
  causality : ¬ (.input ∈ c.qualifiers ∧ .output ∈ c.qualifiers)

/-- The rules for a component, in a text with declared types and functions and known names. -/
structure Component.WellFormed (isType : String → Prop) (declares : String → Nat → Nat → Prop)
    (known : String → Prop) (c : Component) : Prop where
  head : c.HeadWellFormed isType
  attributes : ∀ e ∈ settingExpressions c.attributes, e.WellFormed declares known
  binding : ∀ e, c.binding = some e → e.WellFormed declares known

/-- The rules for an alias, in a text with declared components: it is one of another component. -/
def Component.AliasWellFormed (isComponent : String → Prop) (c : Component) : Prop :=
  ∀ clause, c.aliasOf = some clause → isComponent clause.target ∧ clause.target ≠ c.name

/-- The rules for an equation, in a text with declared functions and known names. -/
structure Equation.WellFormed (declares : String → Nat → Nat → Prop) (known : String → Prop)
    (eq : Equation) : Prop where
  lhs : eq.lhs.WellFormed declares known
  rhs : eq.rhs.WellFormed declares known

/-! ### Texts -/

namespace Model

/-- Whether a type of the name is declared. -/
def IsType (text : Model) (name : String) : Prop := ∃ d ∈ text.types, d.name = name

/-- Whether a function is declared with so many inputs and outputs. -/
def Declares (text : Model) (function : String) (inputs outputs : Nat) : Prop :=
  ∃ d ∈ text.functions, d.name = function ∧ d.params.length = inputs ∧ d.outputs.length = outputs

/-- Whether a component is declared. -/
def IsComponent (text : Model) (name : String) : Prop := ∃ c ∈ text.components, c.name = name

/-- Whether equations may use a name. -/
def IsKnown (text : Model) (name : String) : Prop := name = timeName ∨ text.IsComponent name

/-- The rules for a model text. -/
structure WellFormed (text : Model) : Prop where
  typeNames : (text.types.map (·.name)).Nodup
  types : ∀ d ∈ text.types, d.WellFormed
  functionNames : (text.functions.map (·.name)).Nodup
  functions : ∀ d ∈ text.functions, d.WellFormed text.Declares
  componentNames : (text.components.map (·.name)).Nodup
  /-- The name of the time variable is not free. -/
  timeFree : ¬ text.IsComponent timeName
  components : ∀ c ∈ text.components, c.WellFormed text.IsType text.Declares text.IsKnown
  initialEquations : ∀ eq ∈ text.initialEquations, eq.WellFormed text.Declares text.IsKnown
  equations : ∀ eq ∈ text.equations, eq.WellFormed text.Declares text.IsKnown
  aliases : ∀ c ∈ text.components, c.AliasWellFormed text.IsComponent

end Model

end FlatDae.Source
