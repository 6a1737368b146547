/-
Module: FlatDae.Elaboration.Model
Purpose: From a model text to a model. Types come first, then functions, the symbols of all
  components, the equations, the variables and at last the aliases, so that equations may use any
  component and variables are classified with all equations known. Every fault is reported, and a
  text with a fault has no model.
Main exports: timeName, Building, elaborateModel, TextFailure, Model.ofText
-/
import FlatDae.Elaboration.Expression
import FlatDae.Model.Registration
import FlatDae.Source.Grammar

namespace FlatDae.Elaboration

/-- The name of the independent variable, which every equation can use. -/
def timeName : String := "time"

/-- The model as far as it is built, with the faults found so far. -/
structure Draft where
  model : Model := {}
  problems : Array Located := #[]

/-- Building a model with faults collected on the way. -/
abbrev Building := StateM Draft

/-- Builds expressions with nodes of the model. -/
def elaborating {α : Type} (x : Elaborating α) : Building α :=
  modifyGet fun draft =>
    let (a, progress) := x.run { supply := draft.model.supply, problems := draft.problems }
    (a, { model := { draft.model with supply := progress.supply }, problems := progress.problems })

/-- Changes the model. -/
def modifyModel {α : Type} (f : Model → α × Model) : Building α :=
  modifyGet fun draft =>
    let (a, model) := f draft.model
    (a, { draft with model })

/-- Carries out an action on the model and says whether it succeeded; a failure is reported at
    `start`. -/
def attempt (start : Nat) (action : ModelAction Unit) : Building Bool := do
  match action.run (← get).model with
  | .ok () model => modify fun draft => { draft with model }; return true
  | .error error model =>
    modify fun draft => { draft with model }
    elaborating (report start (.refused error))
    return false

/-! ### Types and functions -/

/-- Adds a declared type: the defaults of its domain with the declared values in their place. -/
def buildType (d : Source.TypeDeclaration) : Building Unit := do
  match Domain.ofName? d.base with
  | none => elaborating (report d.start (.unknownBase d.name d.base))
  | some domain =>
    let settings ← elaborating (elaborateAttributes ∅ (.type d.name) d.attributes)
    let new ← elaborating (make (VariableType.new d.name domain))
    let type := (VariableType.defaultAttributes domain ++ settings).foldl
      (fun type (name, value) => type.withAttribute name value) new
    discard <| attempt d.start (Model.addType type)

/-- Collects the signatures of the declared functions, of several with one name the last. -/
def signaturesOf : List Source.FunctionDeclaration → Signatures → Building Signatures
  | [], signatures => return signatures
  | d :: ds, signatures => do
    if signatures.contains d.name then
      elaborating (report d.start (.repeatedFunction d.name))
    signaturesOf ds (signatures.insert d.name ⟨d.params.length, d.outputs.length⟩)

/-- A new symbol for every name. -/
def newSymbols : List String → Fresh (List Expr)
  | [] => return []
  | name :: names => do return (← Fresh.symbol name) :: (← newSymbols names)

/-- Adds a declared function, unless it has a fault. -/
def buildFunction (signatures : Signatures) (d : Source.FunctionDeclaration) : Building Unit := do
  if d.params.length != d.params.eraseDups.length then
    elaborating (report d.start (.repeatedInput d.name))
  else
    let inputs ← elaborating (make (newSymbols d.params))
    let scope := Scope.function d.name (Std.TreeMap.ofList (d.params.zip inputs))
    match ← elaborating (elaborateInTurn signatures scope d.outputs) with
    | none => return
    | some outputs =>
      modifyModel fun m => ((), m.setFunction { name := d.name, inputs, outputs })

/-! ### Components and equations -/

/-- Gives every component a symbol, beside those there are. A name that is taken keeps the symbol it
    has. -/
def symbolsOf : List Source.Component → Symbols → Building Symbols
  | [], symbols => return symbols
  | c :: cs, symbols => do
    if symbols.contains c.name then
      elaborating (report c.start (.repeatedComponent c.name))
      symbolsOf cs symbols
    else
      let symbol ← elaborating (make (Fresh.symbol c.name))
      symbolsOf cs (symbols.insert c.name symbol)

/-- Builds both sides of an equation. -/
def buildEquation (signatures : Signatures) (symbols : Symbols) (eq : Source.Equation) :
    Building (Option Equation) := do
  let lhs ← elaborating (elaborateExpression signatures (.model symbols) eq.lhs)
  let rhs ← elaborating (elaborateExpression signatures (.model symbols) eq.rhs)
  match lhs, rhs with
  | some lhs, some rhs => return some { lhs, rhs }
  | _, _ => return none

/-- Adds the equations that have no fault. -/
def buildEquations (signatures : Signatures) (symbols : Symbols)
    (add : Model → Equation → Model) : List Source.Equation → Building Unit
  | [] => return
  | eq :: eqs => do
    if let some built := ← buildEquation signatures symbols eq then
      modifyModel fun m => ((), add m built)
    buildEquations signatures symbols add eqs

/-- The variability that a qualifier gives. -/
def variability? : Source.Qualifier → Option Variability
  | .constant => some .constant
  | .parameter => some .parameter
  | .discrete => some .discrete
  | .input => none
  | .output => none

/-- The variability of a component; without a qualifier a real one is continuous and any other is
    discrete. -/
def variabilityOf (c : Source.Component) (domain : Domain) : Except Problem Variability :=
  match c.qualifiers.filterMap variability? with
  | [] => .ok (if domain == .real then .continuous else .discrete)
  | [variability] => .ok variability
  | _ => .error (.severalVariabilities c.name)

/-- The causality of a component. -/
def causalityOf (c : Source.Component) : Except Problem Causality :=
  match c.qualifiers.contains .input, c.qualifiers.contains .output with
  | true, true => .error (.inputAndOutput c.name)
  | true, false => .ok .input
  | false, true => .ok .output
  | false, false => .ok .internal

/-- The domain of a component with its declared type; built-in types are not declared. -/
def typeOf (m : Model) (c : Source.Component) : Except Problem (Domain × Option VariableType) :=
  match Domain.ofName? c.typeName with
  | some domain => .ok (domain, none)
  | none =>
    match m.types.get? c.typeName with
    | some type => .ok (type.domain, some type)
    | none => .error (.unknownType c.typeName)

/-- What the head of a component says, its symbol being known. -/
def declaredVariable (m : Model) (c : Source.Component) (symbol : Expr) :
    Except Problem Variable := do
  let (domain, declaredType) ← typeOf m c
  let variability ← variabilityOf c domain
  let causality ← causalityOf c
  return { symbol, domain, causality, variability, declaredType }

/-- Builds the attributes and the binding of a component into its variable. -/
def completeVariable (signatures : Signatures) (symbols : Symbols) (c : Source.Component)
    (declared : Variable) : Building (Option Variable) := do
  let settings ← elaborating (elaborateAttributes signatures (.model symbols) c.attributes)
  let var := settings.foldl (fun var (name, value) => var.withAttribute name value) declared
  match c.binding with
  | none => return some var
  | some binding =>
    match ← elaborating (elaborateExpression signatures (.model symbols) binding) with
    | none => return none
    | some value => return some (var.withAttribute Variable.bindingAttribute (.expr value))

/-- Builds the variable of a component. The component called like the time variable has none. -/
def buildVariable (signatures : Signatures) (symbols : Symbols) (c : Source.Component) :
    Building (Option Variable) := do
  if c.name == timeName then return none
  match symbols[c.name]? with
  | none => return none
  | some symbol =>
    match declaredVariable (← get).model c symbol with
    | .error problem => elaborating (refuse c.start problem)
    | .ok declared => completeVariable signatures symbols c declared

/-- Registers the variables of the components, and lists the components that are registered. -/
def buildVariables (signatures : Signatures) (symbols : Symbols) :
    List Source.Component → Building (List (Source.Component × VarId))
  | [] => return []
  | c :: cs => do
    match ← buildVariable signatures symbols c with
    | none => buildVariables signatures symbols cs
    | some var =>
      let v ← modifyModel (·.createVariable var)
      let registered ← attempt c.start (Model.addVariable v)
      let more ← buildVariables signatures symbols cs
      return if registered then (c, v) :: more else more

/-- Sets the alias that a registered component is declared to be. -/
def buildAlias (c : Source.Component) (v : VarId) : Building Unit := do
  match c.aliasOf with
  | none => return
  | some clause =>
    match (← get).model.findVariable? clause.target with
    | none => elaborating (report c.start (.unknownAliasTarget clause.target))
    | some target =>
      if target == v then elaborating (report c.start (.aliasOfItself c.name))
      else
        modifyModel fun m =>
          ((), m.modifyVariable v fun var =>
            { var with aliasOf := some { target, negated := clause.negated } })

/-! ### Models -/

/-- Builds the equations, variables and aliases of a text. -/
def buildContents (signatures : Signatures) (symbols : Symbols) (text : Source.Model) :
    Building Unit := do
  buildEquations signatures symbols Model.addInitialEquation text.initialEquations
  buildEquations signatures symbols Model.addDaeEquation text.equations
  let registered ← buildVariables signatures symbols text.components
  registered.forM fun (c, v) => buildAlias c v

/-- Builds all parts of a model text. -/
def buildModel (text : Source.Model) : Building Unit := do
  let time ← elaborating (make (Fresh.symbol timeName))
  modifyModel fun m => ((), { m with time := some time })
  text.types.forM buildType
  let signatures ← signaturesOf text.functions ∅
  text.functions.forM (buildFunction signatures)
  let symbols ← symbolsOf text.components ((∅ : Symbols).insert timeName time)
  buildContents signatures symbols text
  modifyModel fun m => ((), m.resolveLinks.2)

/-- The model that a text describes, or all its faults in the order in which they are found. -/
def elaborateModel (text : Source.Model) : Except (List Located) Model :=
  let ((), draft) := (buildModel text).run {}
  if draft.problems.isEmpty then .ok draft.model else .error draft.problems.toList

end FlatDae.Elaboration

namespace FlatDae

/-- Why a text has no model. -/
inductive TextFailure where
  | unread (failure : Source.ParseFailure)
  | faulty (problems : List Elaboration.Located)

/-- The faults of a text, one to a line with their places. -/
def faultReport (text : String) (problems : List Elaboration.Located) : String :=
  Diagnostic.report text (problems.map (·.diagnostic))

/-- The model that a text describes. -/
def Model.ofText (text : String) : Except TextFailure Model :=
  match Source.parse text with
  | .error failure => .error (.unread failure)
  | .ok source =>
    match Elaboration.elaborateModel source with
    | .error problems => .error (.faulty problems)
    | .ok model => .ok model

end FlatDae
