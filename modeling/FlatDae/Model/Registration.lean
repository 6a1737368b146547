/-
Module: FlatDae.Model.Registration
Purpose: Registering variables and linking derivatives. A variable is classified, typed and linked
  to the other side of its derivative relation when it is registered; `Model.resolveLinks` makes the
  links that the order of registration and of the equations left open.
Main exports: Model.link, Model.addVariable, Model.resolveLinks
-/
import FlatDae.Model.Basic

namespace FlatDae.Model

/-- Whether a registered variable can be linked. -/
def isLinkable (m : Model) (v : VarId) : Bool :=
  match (m.store.get v).kind with
  | some kind => kind.isLinkable
  | none => false

/-- The variable with a kind that a link decides, if no other link has. -/
def withLinkedKind (linked : VariableKind) (v : Variable) : Variable :=
  match v.kind with
  | some kind => if kind.isUnlinked then { v with kind := some linked } else v
  | none => v

/-- Links two variables as derivative and differentiated. -/
def link (m : Model) (derivative differentiated : VarId) : Model :=
  let m := m.modifyVariable derivative fun d => { d with differentiated := some differentiated }
  let m := m.modifyVariable differentiated fun x => { x with derivative := some derivative }
  let m := m.modifyVariable derivative (withLinkedKind .derivative)
  m.modifyVariable differentiated (withLinkedKind .differentiated)

/-- Gives a variable the registry's object for its declared type, or the type of its domain. The
    registry only changes once the type is known to fit. -/
def assignType (v : VarId) : ModelAction Unit := do
  let m ← get
  let var := m.store.get v
  let found ← match var.declaredType with
    | some declared => pure ((m.types.get? declared.name).getD declared)
    | none => onTypes (.builtin var.domain)
  if found.domain != var.domain then
    throw (.typeMismatch var.name found.name var.domain found.domain)
  let type ← match var.declaredType with
    | some _ => onTypes (.intern found)
    | none => pure found
  modify fun m => m.modifyVariable v fun var => { var with declaredType := some type }

/-- Makes the link that the classification of a variable just registered calls for, if the variable
    on the other side is registered and can be linked. -/
def linkPartner (m : Model) (v : VarId) (classification : Classification) : Model :=
  match (classification.partner.bind m.findBySymbol?).filter m.isLinkable with
  | none => m
  | some other =>
    match classification.kind with
    | .derivative => m.link v other
    | .differentiated => m.link other v
    | _ => m

/-- Registers a variable. -/
def addVariable (v : VarId) : ModelAction Unit := do
  let m ← get
  let var := m.store.get v
  if m.names.contains var.name then throw (.duplicateVariable var.name)
  let classification ← MonadExcept.ofExcept (classify m.store var m.relations)
  assignType v
  modify fun m => m.modifyVariable v fun var => { var with kind := some classification.kind }
  if let some differentiated := var.differentiated then
    let relation : DerivativeRelation :=
      { derivative := var.symbol, differentiated := (m.store.get differentiated).symbol }
    modify fun m => { m with relations := m.relations.push relation }
  modify fun m => m.linkPartner v classification
  modify fun m =>
    { m with
      registered := m.registered.push v
      names := m.names.insert var.name m.registered.size
      parametersValid := false }

/-- Makes the link of one relation, if both variables are registered, can be linked and are not
    linked yet. Says how many links that made. -/
def resolveLink (m : Model) (relation : DerivativeRelation) : Nat × Model :=
  match m.findBySymbol? relation.derivative, m.findBySymbol? relation.differentiated with
  | some derivative, some differentiated =>
    if !m.isLinkable derivative || !m.isLinkable differentiated then (0, m)
    else if (m.store.get differentiated).derivative == some derivative then (0, m)
    else (1, m.link derivative differentiated)
  | _, _ => (0, m)

/-- Makes the links of all relations, in order, and says how many that made. -/
def resolveLinks (m : Model) : Nat × Model :=
  m.relations.foldl
    (fun (linked, m) relation =>
      let (new, m) := m.resolveLink relation
      (linked + new, m))
    (0, m)

end FlatDae.Model
