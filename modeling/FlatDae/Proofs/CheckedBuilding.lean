/-
Module: FlatDae.Proofs.CheckedBuilding
Purpose: Building a model with every lookup that could fail made to fail. The places that the index of a
  model gives for names are looked up in the list of registered variables, and the variables there in the
  store; the inputs of a function are taken from the table of its scope. A place or a variable that there is
  not and a name that the table of a scope lacks are defects, at which building stops.
Main exports: CheckedBuilding, fetch, registerChecked, resolveLinksChecked, buildModelChecked,
  Model.ofTextChecked
-/
import FlatDae.Elaboration.Model
import FlatDae.Proofs.ModelRuns
import FlatDae.Proofs.PairReading

namespace FlatDae

namespace Model

/-- Makes the link that a classification calls for with the variable that was found, if it can be
    linked. -/
def linkFound (m : Model) (v : VarId) (kind : VariableKind) (found : Option VarId) : Model :=
  match found.filter m.isLinkable with
  | none => m
  | some other =>
    match kind with
    | .derivative => m.link v other
    | .differentiated => m.link other v
    | _ => m

/-- Makes the link between the variables that were found for the sides of a relation, if both can be linked
    and are not linked yet. -/
def linkSides (m : Model) (derivative differentiated : Option VarId) : Model :=
  match derivative, differentiated with
  | some derivative, some differentiated =>
    if !m.isLinkable derivative || !m.isLinkable differentiated then m
    else if (m.store.get differentiated).derivative == some derivative then m
    else m.link derivative differentiated
  | _, _ => m

end Model

namespace Elaboration

open Source (Defect Checked)

/-- Building with lookups that can fail. -/
abbrev CheckedBuilding := StateT Draft Checked

/-- What looks nothing up. -/
def unchecked {α : Type} (x : Building α) : CheckedBuilding α := fun draft => .ok (x.run draft)

/-! ### Lookups -/

/-- What a table has under a name that it is trusted to have. -/
def entry (table : Symbols) (name : String) : Checked Expr :=
  match table[name]? with
  | some symbol => .ok symbol
  | none => .error (.noEntry name)

/-- The variable called `name`, by its place. -/
def fetch (name : String) : CheckedBuilding (Option VarId) := do
  let m := (← get).model
  match m.names[name]? with
  | none => return none
  | some place =>
    match m.registered[place]? with
    | none => throw (.outOfRange place)
    | some v => if v.index < m.store.cells.size then return some v else throw (.outOfRange v.index)

/-- The variable whose symbol is the very node `symbol`. -/
def fetchBySymbol (symbol : Expr) : CheckedBuilding (Option VarId) := do
  match symbol.name? with
  | none => return none
  | some name =>
    match ← fetch name with
    | none => return none
    | some v =>
      let m := (← get).model
      return if (m.store.get v).symbol.same symbol then some v else none

/-! ### Building -/

/-- Adds a declared function; its inputs are the entries for its parameters. -/
def buildFunctionChecked (signatures : Signatures) (d : Source.FunctionDeclaration) : CheckedBuilding Unit := do
  if d.params.length != d.params.eraseDups.length then
    unchecked (elaborating (report d.start (.repeatedInput d.name)))
  else
    let symbols ← unchecked (elaborating (make (newSymbols d.params)))
    let table : Symbols := Std.TreeMap.ofList (d.params.zip symbols)
    let inputs ← (d.params.mapM (entry table) : Checked (List Expr))
    match ← unchecked (elaborating (elaborateInTurn signatures (.function d.name table) d.outputs)) with
    | none => return
    | some outputs =>
      unchecked (modifyModel fun m => ((), m.setFunction { name := d.name, inputs, outputs }))

/-- Reports that a variable is not registered. -/
def refuseVariable (start : Nat) (error : ModelError) : CheckedBuilding Bool := do
  unchecked (elaborating (report start (.refused error)))
  return false

/-- The variable on the other side of a relation, if there is a relation. -/
def fetchPartner : Option Expr → CheckedBuilding (Option VarId)
  | none => return none
  | some symbol => fetchBySymbol symbol

/-- Prepares a variable, links it and enters it at the next place. -/
def enterVariable (v : VarId) (classification : Classification) (type : VariableType)
    (types : TypeRegistry) : CheckedBuilding Unit := do
  let name := ((← get).model.store.get v).name
  unchecked (modifyModel fun m => ((), m.prepare v classification type types))
  let found ← fetchPartner classification.partner
  unchecked (modifyModel fun m => ((), m.linkFound v classification.kind found))
  unchecked (modifyModel fun m =>
    ((), { m with
      registered := m.registered.push v
      names := m.names.insert name m.registered.size
      parametersValid := false }))

/-- Registers a variable. -/
def registerChecked (start : Nat) (v : VarId) : CheckedBuilding Bool := do
  let m := (← get).model
  let var := m.store.get v
  if m.names.contains var.name then refuseVariable start (.duplicateVariable var.name)
  else
    match classify m.store var m.relations with
    | .error error => refuseVariable start error
    | .ok classification =>
      match m.types.assign var with
      | .error error => refuseVariable start error
      | .ok (type, types) =>
        enterVariable v classification type types
        return true

/-- Registers the variables of the components, and lists the components that are registered. -/
def buildVariablesChecked (signatures : Signatures) (symbols : Symbols) :
    List Source.Component → CheckedBuilding (List (Source.Component × VarId))
  | [] => return []
  | c :: cs => do
    match ← unchecked (buildVariable signatures symbols c) with
    | none => buildVariablesChecked signatures symbols cs
    | some var =>
      let v ← unchecked (modifyModel (·.createVariable var))
      let registered ← registerChecked c.start v
      let more ← buildVariablesChecked signatures symbols cs
      return if registered then (c, v) :: more else more

/-- Sets the alias that a registered component is declared to be. -/
def buildAliasChecked (c : Source.Component) (v : VarId) : CheckedBuilding Unit := do
  match c.aliasOf with
  | none => return
  | some clause =>
    match ← fetch clause.target with
    | none => unchecked (elaborating (report c.start (.unknownAliasTarget clause.target)))
    | some target =>
      if target == v then unchecked (elaborating (report c.start (.aliasOfItself c.name)))
      else
        unchecked (modifyModel fun m =>
          ((), m.modifyVariable v fun var =>
            { var with aliasOf := some { target, negated := clause.negated } }))

/-- Makes the link of one relation. -/
def resolveLinkChecked (relation : DerivativeRelation) : CheckedBuilding Unit := do
  let derivative ← fetchBySymbol relation.derivative
  let differentiated ← fetchBySymbol relation.differentiated
  unchecked (modifyModel fun m => ((), m.linkSides derivative differentiated))

/-- Makes the links of all relations, in order. -/
def resolveLinksChecked : CheckedBuilding Unit := do
  let m := (← get).model
  m.relations.toList.forM resolveLinkChecked

/-- Builds the equations, variables and aliases of a text. -/
def buildContentsChecked (signatures : Signatures) (symbols : Symbols) (text : Source.Model) :
    CheckedBuilding Unit := do
  unchecked (buildEquations signatures symbols Model.addInitialEquation text.initialEquations)
  unchecked (buildEquations signatures symbols Model.addDaeEquation text.equations)
  let registered ← buildVariablesChecked signatures symbols text.components
  registered.forM fun (c, v) => buildAliasChecked c v

/-- Builds all parts of a model text. -/
def buildModelChecked (text : Source.Model) : CheckedBuilding Unit := do
  let time ← unchecked (elaborating (make (Fresh.symbol timeName)))
  unchecked (modifyModel fun m => ((), { m with time := some time }))
  unchecked (text.types.forM buildType)
  let signatures ← unchecked (signaturesOf text.functions ∅)
  text.functions.forM (buildFunctionChecked signatures)
  let symbols ← unchecked (symbolsOf text.components ((∅ : Symbols).insert timeName time))
  buildContentsChecked signatures symbols text
  resolveLinksChecked

/-- The model that a text describes, or all its faults. -/
def elaborateChecked (text : Source.Model) : Checked (Except (List Located) Model) := do
  let ((), draft) ← (buildModelChecked text).run {}
  return if draft.problems.isEmpty then .ok draft.model else .error draft.problems.toList

end Elaboration

/-- The model that a text describes, read in two passes and built with every lookup checked. -/
def Model.ofTextChecked (text : String) : Source.Checked (Except TextFailure Model) := do
  match ← Source.parseChecked text with
  | .error failure => return .error (.unread failure)
  | .ok source =>
    match ← Elaboration.elaborateChecked source with
    | .error problems => return .error (.faulty problems)
    | .ok model => return .ok model

end FlatDae
