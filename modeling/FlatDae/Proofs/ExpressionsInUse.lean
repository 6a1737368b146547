/-
Module: FlatDae.Proofs.ExpressionsInUse
Purpose: Which expressions of a text are looked at when its model is built. Equations always are. Attributes
  of a type are if it extends a built-in type, attributes and bindings of a component if nothing is wrong
  with the words in front of its name, and the outputs of a function up to the first one with a fault. Every
  expression that is passed over has one of these other faults in front of it.
Main exports: Source.Region, Source.Region.Misnames, Source.Model.Contains, Source.Model.LooksAt,
  Source.Model.PassesOver, Contains.looksAt_or_passesOver, Source.Model.Misnames
-/
import FlatDae.Proofs.ModelElaboration
import FlatDae.Proofs.NameFaults

namespace FlatDae

open Elaboration (Problem Located timeName InTurn)

namespace Source

/-! ### Names of a text -/

/-- The function that is called by a name, which is the last one declared under it. -/
def lastDeclared? : List FunctionDeclaration → String → Option FunctionDeclaration
  | [], _ => none
  | d :: ds, name => lastDeclared? ds name <|> if d.name = name then some d else none

/-- Whether the function that is called by a name has so many inputs and outputs. -/
def LastDeclares (ds : List FunctionDeclaration) (function : String) (inputs outputs : Nat) : Prop :=
  ∃ d, lastDeclared? ds function = some d ∧ d.params.length = inputs ∧ d.outputs.length = outputs

/-- The type is declared over a built-in one. -/
def OffersType (ds : List TypeDeclaration) (name : String) : Prop :=
  ∃ d ∈ ds, d.name = name ∧ (Domain.ofName? d.base).isSome = true

/-- Where an expression stands, which decides what names in it can mean. -/
inductive Region where
  | type (name : String)
  | function (name : String) (params : List String)
  | contents

namespace Region

/-- The names that mean something: in a type none, in a function its inputs, and elsewhere the components
    and the time variable. -/
def Known (text : Model) : Region → String → Prop
  | .type _, _ => False
  | .function _ params, name => name ∈ params
  | .contents, name => text.IsKnown name

/-- The functions that can be called: in a type none. -/
def Declares (text : Model) : Region → String → Nat → Nat → Prop
  | .type _ => fun _ _ _ => False
  | _ => LastDeclares text.functions

/-- The fault of a name that means nothing. -/
def unresolved : Region → String → Problem
  | .type owner, name => .notLiteral name owner
  | .function owner _, name => .notAnInput name owner
  | .contents, name => .unknownVariable name

theorem unresolved_isNaming (region : Region) (name : String) : (region.unresolved name).IsNaming := by
  cases region <;> trivial

end Region

/-- The faults of names in an expression of a region. -/
def Region.Misnames (text : Model) (region : Region) (e : Expression) (l : Located) : Prop :=
  e.Misnames (region.Declares text) (region.Known text) region.unresolved l

/-- The rules for an expression of a region. -/
def Region.Admits (text : Model) (region : Region) (e : Expression) : Prop :=
  e.WellFormed (region.Declares text) (region.Known text)

namespace Model

/-- The expressions of a text with their regions. -/
inductive Contains (text : Model) : Region → Expression → Prop where
  | ofType {d : TypeDeclaration} {e : Expression} (hd : d ∈ text.types)
      (he : e ∈ settingExpressions d.attributes) : Contains text (.type d.name) e
  | output {d : FunctionDeclaration} {e : Expression} (hd : d ∈ text.functions) (he : e ∈ d.outputs) :
      Contains text (.function d.name d.params) e
  | side {eq : Equation} {e : Expression} (heq : eq ∈ text.initialEquations ∨ eq ∈ text.equations)
      (he : e = eq.lhs ∨ e = eq.rhs) : Contains text .contents e
  | own {c : Component} {e : Expression} (hc : c ∈ text.components)
      (he : e ∈ settingExpressions c.attributes ∨ c.binding = some e) : Contains text .contents e

/-- The expressions of a text that are looked at, with their regions. -/
inductive LooksAt (text : Model) : Region → Expression → Prop where
  /-- An attribute of a type that extends a built-in one. -/
  | ofType {d : TypeDeclaration} {e : Expression} (hd : d ∈ text.types)
      (hbase : (Domain.ofName? d.base).isSome = true) (he : e ∈ settingExpressions d.attributes) :
      LooksAt text (.type d.name) e
  /-- An output of a function with different inputs, if the outputs in front of it have no fault. -/
  | output {d : FunctionDeclaration} {e : Expression} (hd : d ∈ text.functions) (hparams : d.params.Nodup)
      (he : InTurn ((Region.function d.name d.params).Admits text) d.outputs e) :
      LooksAt text (.function d.name d.params) e
  /-- A side of an equation. -/
  | side {eq : Equation} {e : Expression} (heq : eq ∈ text.initialEquations ∨ eq ∈ text.equations)
      (he : e = eq.lhs ∨ e = eq.rhs) : LooksAt text .contents e
  /-- An attribute or the binding of a component with another name than the time variable and nothing
      wrong in front of its name. -/
  | own {c : Component} {e : Expression} (hc : c ∈ text.components) (htime : c.name ≠ timeName)
      (hhead : c.HeadWellFormed (OffersType text.types))
      (he : e ∈ settingExpressions c.attributes ∨ c.binding = some e) : LooksAt text .contents e

/-- The expressions of a text that are not looked at, because of another fault in front of them. -/
inductive PassesOver (text : Model) : Region → Expression → Prop where
  /-- The type does not extend a built-in one. -/
  | ofType {d : TypeDeclaration} {e : Expression} (hd : d ∈ text.types)
      (he : e ∈ settingExpressions d.attributes) (hbase : Domain.ofName? d.base = none) :
      PassesOver text (.type d.name) e
  /-- Two inputs of the function have one name. -/
  | input {d : FunctionDeclaration} {e : Expression} (hd : d ∈ text.functions) (he : e ∈ d.outputs)
      (hparams : ¬ d.params.Nodup) : PassesOver text (.function d.name d.params) e
  /-- An output in front of it has a fault. -/
  | output {d : FunctionDeclaration} {e e' : Expression} {before rest : List Expression}
      (hd : d ∈ text.functions) (he : d.outputs = before ++ e :: rest) (hmem : e' ∈ before)
      (hfault : ¬ (Region.function d.name d.params).Admits text e') :
      PassesOver text (.function d.name d.params) e
  /-- The component is called like the time variable, or something is wrong in front of its name. -/
  | own {c : Component} {e : Expression} (hc : c ∈ text.components)
      (he : e ∈ settingExpressions c.attributes ∨ c.binding = some e)
      (hhead : c.name = timeName ∨ ¬ c.HeadWellFormed (OffersType text.types)) :
      PassesOver text .contents e

/-- There is another fault in front of every expression that is not looked at. -/
theorem Contains.looksAt_or_passesOver {text : Model} {region : Region} {e : Expression}
    (h : text.Contains region e) : text.LooksAt region e ∨ text.PassesOver region e := by
  cases h with
  | @ofType d _ hd he =>
      cases hbase : Domain.ofName? d.base with
      | none => exact Or.inr (.ofType hd he hbase)
      | some domain => exact Or.inl (.ofType hd (Option.isSome_of_eq_some hbase) he)
  | @output d _ hd he =>
      by_cases hparams : d.params.Nodup
      · obtain ⟨before, rest, hsplit⟩ := List.append_of_mem he
        by_cases hbefore : ∀ e' ∈ before, (Region.function d.name d.params).Admits text e'
        · exact Or.inl (.output hd hparams ⟨before, rest, hsplit, hbefore⟩)
        · simp only [not_forall] at hbefore
          obtain ⟨e', hmem, hfault⟩ := hbefore
          exact Or.inr (.output hd hsplit hmem hfault)
      · exact Or.inr (.input hd he hparams)
  | side heq he => exact Or.inl (.side heq he)
  | @own c _ hc he =>
      by_cases htime : c.name = timeName
      · exact Or.inr (.own hc he (Or.inl htime))
      · by_cases hhead : c.HeadWellFormed (OffersType text.types)
        · exact Or.inl (.own hc htime hhead he)
        · exact Or.inr (.own hc he (Or.inr hhead))

/-- The expressions of a text are those of its regions. -/
theorem mem_expressions_iff {text : Model} {e : Expression} :
    e ∈ text.expressions ↔ ∃ region, text.Contains region e := by
  constructor
  · intro he
    simp only [expressions, List.mem_append, List.mem_flatMap, List.mem_cons, List.not_mem_nil, or_false,
      Option.mem_toList] at he
    rcases he with ((⟨d, hd, he⟩ | ⟨d, hd, he⟩) | ⟨c, hc, he⟩) | ⟨eq, heq, he⟩
    · exact ⟨_, .ofType hd he⟩
    · exact ⟨_, .output hd he⟩
    · exact ⟨_, .own hc he⟩
    · exact ⟨_, .side heq he⟩
  · rintro ⟨region, h⟩
    simp only [expressions, List.mem_append, List.mem_flatMap, List.mem_cons, List.not_mem_nil, or_false,
      Option.mem_toList]
    cases h with
    | ofType hd he => exact Or.inl (Or.inl (Or.inl ⟨_, hd, he⟩))
    | output hd he => exact Or.inl (Or.inl (Or.inr ⟨_, hd, he⟩))
    | side heq he => exact Or.inr ⟨_, heq, he⟩
    | own hc he => exact Or.inl (Or.inr ⟨_, hc, he⟩)

theorem LooksAt.contains {text : Model} {region : Region} {e : Expression} (h : text.LooksAt region e) :
    text.Contains region e := by
  cases h with
  | ofType hd _ he => exact .ofType hd he
  | output hd _ he =>
      obtain ⟨before, rest, hsplit, -⟩ := he
      exact .output hd (hsplit ▸ List.mem_append_right _ List.mem_cons_self)
  | side heq he => exact .side heq he
  | own hc _ _ he => exact .own hc he

/-- The faults of names in the expressions that are looked at. -/
def Misnames (text : Model) (l : Located) : Prop :=
  ∃ region e, text.LooksAt region e ∧ region.Misnames text e l

end Model

end Source

end FlatDae
