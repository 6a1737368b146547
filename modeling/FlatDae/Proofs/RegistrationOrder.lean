/-
Module: FlatDae.Proofs.RegistrationOrder
Purpose: What the order of registration does not decide. Beside a run there is the one that makes the
  same variables, types and functions and registers nothing. What a variable defines once it is
  registered is settled in the latter: its kind, as far as it has a value, follows from the variable,
  and its type from the types that there are.
Main exports: Variable.registeredDefinition?, Operation.SetsUp, Operation.TypesFirst, Model.Registers,
  Model.Follows.registers
-/
import FlatDae.Proofs.RunInvariants
import FlatDae.Proofs.TypeAssignment

namespace FlatDae

/-! ### What registration makes of a variable -/

namespace Variable

/-- The kind that registration gives a variable, if it is one with a value. -/
def valueKind? (var : Variable) : Option VariableKind :=
  match var.variability with
  | .constant => some (.constant var.domain)
  | .parameter => some (.parameter var.domain (isDependent var))
  | _ => none

/-- What a variable defines once it is registered with a type. -/
def registeredDefinition? (var : Variable) (v : VarId) (type : VariableType) :
    Except ModelError (Option Definition) :=
  ({ var with declaredType := some type, kind := var.valueKind? } : Variable).definition? v

/-- A classification gives the kind of a constant or parameter or one without a value. -/
theorem valueKind?_of_classify {var : Variable} {store : Variables}
    {relations : Array DerivativeRelation} {classification : Classification}
    (h : classify store var relations = .ok classification) :
    var.valueKind? = some classification.kind ∨
      var.valueKind? = none ∧ classification.kind.isConstantOrParameter = false := by
  unfold valueKind?
  unfold classify at h
  split at h
  case h_1 hvariability =>
    rw [hvariability, ← Except.ok.inj h]
    exact Or.inl rfl
  case h_2 hvariability =>
    rw [hvariability, ← Except.ok.inj h]
    exact Or.inl rfl
  case h_6 hvariability _ _ =>
    rw [hvariability, ← Except.ok.inj h]
    refine Or.inr ⟨rfl, ?_⟩
    simp only
    split
    · rfl
    · rfl
    · split <;> rfl
  case h_7 => cases h
  case h_5 hvariability _ _ =>
    rw [hvariability, ← Except.ok.inj h]
    exact Or.inr ⟨rfl, rfl⟩
  all_goals
    rename_i hvariability _
    rw [hvariability, ← Except.ok.inj h]
    exact Or.inr ⟨rfl, rfl⟩

/-- Classified in any state, a variable defines the same. -/
theorem definition?_classified {var : Variable} {store : Variables}
    {relations : Array DerivativeRelation} {classification : Classification}
    (h : classify store var relations = .ok classification) (v : VarId) (type : VariableType) :
    ({ var with declaredType := some type, kind := some classification.kind } : Variable).definition? v =
      var.registeredDefinition? v type := by
  rcases valueKind?_of_classify h with hkind | ⟨hnone, hvalueless⟩
  · rw [registeredDefinition?, hkind]
  · simp [registeredDefinition?, definition?, isTabled, hnone, hvalueless]

/-- Variables that were given the same define the same once they are registered. -/
theorem SameGiven.registeredDefinition?_eq {a b : Variable} (h : SameGiven a b) (v : VarId)
    (type : VariableType) : b.registeredDefinition? v type = a.registeredDefinition? v type := by
  have hkind : b.valueKind? = a.valueKind? := by
    rw [valueKind?, h.variability, h.domain, isDependent, h.binding?_eq, valueKind?, isDependent]
  have hupdated : Updated { a with declaredType := some type, kind := a.valueKind? }
      { b with declaredType := some type, kind := b.valueKind?, aliasOf := a.aliasOf } :=
    ⟨⟨⟨h.symbol, h.domain, h.causality, h.variability⟩, rfl, h.attributes⟩, rfl, Or.inl hkind⟩
  exact hupdated.definition?_eq v

end Variable
/-! ### The run beside -/

namespace Operation

/-- Whether the operation makes a variable or function or a type, or changes a variable in what it is
    given. -/
def SetsUp : Operation → Bool
  | .create _ => true
  | .setDeclaredType _ _ => true
  | .setAttribute _ _ _ => true
  | .addType _ => true
  | .setFunction _ => true
  | _ => false

/-- Whether the types come before the variables: a declared type is there when a variable with it is
    registered, and a type that is named as a built-in one, which any variable may get, comes first. -/
def TypesFirst (m : Model) : Operation → Prop
  | .addVariable v =>
    ∀ declared, (m.store.get v).declaredType = some declared →
      (m.types.get? declared.name).isSome = true
  | .addType type => Domain.ofName? type.name = none ∨ m.registered = #[]
  | _ => True

end Operation

namespace Model

/-- The model that operations lead to if nothing is registered, as far as values rest on it. -/
def setUp (ops : List Operation) : Model := (ops.filter Operation.SetsUp).foldl Operation.run {}

/-- What operations do that neither set up nor register anything. -/
structure KeepsGiven (m m' : Model) : Prop where
  size : m'.store.cells.size = m.store.cells.size
  registered : m'.registered = m.registered
  functions : m'.functions = m.functions
  types : m'.types = m.types
  cells : ∀ v : VarId, (m.store.get v).SameGiven (m'.store.get v)
  definition? : ∀ v : VarId, m'.definition? v = m.definition? v

namespace KeepsGiven

theorem refl (m : Model) : KeepsGiven m m := ⟨rfl, rfl, rfl, rfl, fun _ => .refl _, fun _ => rfl⟩

theorem trans {m m' m'' : Model} (h : KeepsGiven m m') (h' : KeepsGiven m' m'') : KeepsGiven m m'' where
  size := h'.size.trans h.size
  registered := h'.registered.trans h.registered
  functions := h'.functions.trans h.functions
  types := h'.types.trans h.types
  cells := fun v => (h.cells v).trans (h'.cells v)
  definition? := fun v => (h'.definition? v).trans (h.definition? v)

theorem of_updates {m m' : Model} (h : Updates m m') : KeepsGiven m m' where
  size := h.size
  registered := by rw [h.rest]
  functions := by rw [h.rest]
  types := by rw [h.rest]
  cells := fun v => (h.cells v).toSameGiven
  definition? := fun v => (h.cells v).definition?_eq v

theorem of_eq {m m' : Model} (hstore : m'.store = m.store) (hregistered : m'.registered = m.registered)
    (hfunctions : m'.functions = m.functions) (htypes : m'.types = m.types) : KeepsGiven m m' where
  size := by rw [hstore]
  registered := hregistered
  functions := hfunctions
  types := htypes
  cells := fun _ => hstore ▸ .refl _
  definition? := fun v => by rw [Model.definition?, hstore, Model.definition?]

theorem modify (m : Model) (v : VarId) {f : Variable → Variable}
    (hgiven : ∀ var : Variable, var.SameGiven (f var))
    (hdefinition : ∀ (var : Variable) (w : VarId), (f var).definition? w = var.definition? w) :
    KeepsGiven m (m.modifyVariable v f) where
  size := Variables.size_modify _ _ _
  registered := rfl
  functions := rfl
  types := rfl
  cells := by
    intro w
    simp only [modifyVariable, Variables.get_modify]
    split
    · exact hgiven _
    · exact .refl _
  definition? := by
    intro w
    simp only [Model.definition?, modifyVariable, Variables.get_modify]
    split
    · exact hdefinition _ w
    · rfl

theorem learnRelation (m : Model) (eq : Equation) : KeepsGiven m (m.learnRelation eq) := by
  unfold Model.learnRelation
  split
  · exact .of_eq rfl rfl rfl rfl
  · exact .refl m

theorem calculate (m : Model) : KeepsGiven m (Model.calculate.after m) := by
  have hstart : KeepsGiven m m.withoutValues := .of_eq rfl rfl rfl rfl
  have hkeeps := hstart.trans (.of_updates (.recordValues m.foundValues m.withoutValues))
  rw [(calculate_after_eq m).1]
  exact hkeeps.trans (.of_eq rfl rfl rfl rfl)

end KeepsGiven

/-- What holds between the model that is only set up and the one with variables registered. -/
structure Registers (given m : Model) : Prop where
  size : m.store.cells.size = given.store.cells.size
  functions : m.functions = given.functions
  named : m.types.Named
  types : given.types.WithBuiltins m.types
  unregistered : m.registered = #[] → m.types = given.types
  /-- Variables that are not registered are as they were set up. -/
  waiting : ∀ v : VarId, v ∉ m.registered → (given.store.get v).SameGiven (m.store.get v)
  declared : ∀ v ∈ m.registered, ∀ declared, (given.store.get v).declaredType = some declared →
    (m.types.get? declared.name).isSome = true
  /-- Registered variables have the definitions that follow from how they and the types were set up. -/
  definition? : ∀ v ∈ m.registered, m.definition? v =
    (given.store.get v).registeredDefinition? v (given.types.typeOf (given.store.get v))

theorem linkPrepared_types (m : Model) (v : VarId) (classification : Classification)
    (type : VariableType) (types : TypeRegistry) :
    ((m.prepare v classification type types).linkPartner v classification).types = types := by
  rw [(Updates.linkPartner _ v classification).rest]
  exact prepare_types m v classification type types

namespace Registers

theorem empty : Registers {} {} where
  size := rfl
  functions := rfl
  named := TypeRegistry.named_empty
  types := .refl _
  unregistered := fun _ => rfl
  waiting := fun _ _ => .refl _
  declared := fun v hv => by simp at hv
  definition? := fun v hv => by simp at hv

variable {given m : Model} (h : Registers given m)
include h

/-- Operations that do not set up anything go on in the model alone. -/
theorem of_keepsGiven {m' : Model} (hkeeps : KeepsGiven m m') : Registers given m' where
  size := hkeeps.size.trans h.size
  functions := hkeeps.functions.trans h.functions
  named := hkeeps.types ▸ h.named
  types := hkeeps.types ▸ h.types
  unregistered := fun hnone => hkeeps.types.trans (h.unregistered (hkeeps.registered.symm.trans hnone))
  waiting := fun v hv => (h.waiting v (hkeeps.registered ▸ hv)).trans (hkeeps.cells v)
  declared := fun v hv declared hdeclared => by
    rw [hkeeps.types]
    exact h.declared v (hkeeps.registered ▸ hv) declared hdeclared
  definition? := fun v hv =>
    (hkeeps.definition? v).trans (h.definition? v (hkeeps.registered ▸ hv))

/-- The same variable is made in both. -/
theorem create (hexist : ∀ v ∈ m.registered, v.index < m.store.cells.size) (new : Variable) :
    Registers (given.createVariable new).2 (m.createVariable new).2 := by
  have hgiven {v : VarId} (hv : v ∈ m.registered) :
      (given.store.create new).2.get v = given.store.get v :=
    Variables.get_create _ _ (h.size ▸ hexist v hv)
  refine ⟨?_, h.functions, h.named, h.types, h.unregistered, ?_, ?_, ?_⟩
  · change (m.store.cells.push new).size = (given.store.cells.push new).size
    rw [Array.size_push, Array.size_push, h.size]
  · intro v hv
    change ((given.store.create new).2.get v).SameGiven ((m.store.create new).2.get v)
    rw [Variables.get_create_eq, Variables.get_create_eq, h.size]
    split
    · exact .refl new
    · exact h.waiting v hv
  · intro v hv declared hdeclared
    refine h.declared v hv declared ?_
    rw [← hgiven hv]
    exact hdeclared
  · intro v hv
    change ((m.store.create new).2.get v).definition? v =
      ((given.store.create new).2.get v).registeredDefinition? v
        (given.types.typeOf ((given.store.create new).2.get v))
    rw [hgiven hv, Variables.get_create _ _ (hexist v hv)]
    exact h.definition? v hv

/-- A variable that is not registered is changed alike in both. -/
theorem modify {v : VarId} {f : Variable → Variable} (hv : v ∉ m.registered)
    (hf : ∀ a b : Variable, a.SameGiven b → (f a).SameGiven (f b)) :
    Registers (given.modifyVariable v f) (m.modifyVariable v f) := by
  have hne {w : VarId} (hw : w ∈ m.registered) : v ≠ w := fun heq => hv (heq ▸ hw)
  refine ⟨?_, h.functions, h.named, h.types, h.unregistered, ?_, ?_, ?_⟩
  · simp only [modifyVariable, Variables.size_modify]
    exact h.size
  · intro w hw
    simp only [modifyVariable, Variables.get_modify, h.size]
    split
    · exact hf _ _ (h.waiting w hw)
    · exact h.waiting w hw
  · intro w hw declared hdeclared
    simp only [modifyVariable, Variables.get_modify_of_ne _ (hne hw)] at hdeclared
    exact h.declared w hw declared hdeclared
  · intro w hw
    simp only [Model.definition?, modifyVariable, Variables.get_modify_of_ne _ (hne hw)]
    exact h.definition? w hw

/-- The same type is added in both, or in none. -/
theorem addType {type : VariableType}
    (hfirst : Domain.ofName? type.name = none ∨ m.registered = #[]) :
    Registers ((Model.addType type).after given) ((Model.addType type).after m) := by
  have hget : m.types.get? type.name = given.types.get? type.name := by
    rcases hfirst with hname | hnone
    · exact h.types.get?_eq hname
    · rw [h.unregistered hnone]
  rw [addType_after, addType_after]
  cases hadd : m.types.add type with
  | error error =>
      cases hgiven : given.types.add type with
      | error error' => exact h
      | ok types =>
          obtain ⟨hcheck, hfree, -⟩ := TypeRegistry.add_eq_ok_iff.1 hgiven
          rw [TypeRegistry.add_eq_ok_iff.2 ⟨hcheck, hget.trans hfree, rfl⟩] at hadd
          cases hadd
  | ok types =>
      obtain ⟨hcheck, hfree, rfl⟩ := TypeRegistry.add_eq_ok_iff.1 hadd
      rw [TypeRegistry.add_eq_ok_iff.2 ⟨hcheck, hget.symm.trans hfree, rfl⟩]
      refine ⟨h.size, h.functions, h.named.store type, h.types.store type, ?_, h.waiting, ?_, ?_⟩
      · intro hnone
        simp only [h.unregistered hnone]
      · intro v hv declared hdeclared
        simp only [TypeRegistry.get?_store]
        split
        · rfl
        · exact h.declared v hv declared hdeclared
      · intro v hv
        have hname : Domain.ofName? type.name = none := by
          refine hfirst.resolve_right fun hnone => ?_
          rw [hnone] at hv
          simp at hv
        have htype : (given.types.store type).typeOf (given.store.get v) =
            given.types.typeOf (given.store.get v) := by
          refine TypeRegistry.typeOf_store hname fun declared hdeclared heq => ?_
          have hfound := h.declared v hv declared hdeclared
          rw [heq, hfree] at hfound
          cases hfound
        simp only [htype]
        exact h.definition? v hv

/-- A variable with a type that is there is registered. -/
theorem register {v : VarId} {classification : Classification} {type : VariableType}
    {types : TypeRegistry} (hexist : v.index < m.store.cells.size)
    (hnot : v ∉ m.registered)
    (hclassify : classify m.store (m.store.get v) m.relations = .ok classification)
    (hassign : m.types.assign (m.store.get v) = .ok (type, types))
    (hdeclared : ∀ declared, (m.store.get v).declaredType = some declared →
      (m.types.get? declared.name).isSome = true) :
    Registers given (m.register v classification type types) := by
  let prepared := m.prepare v classification type types
  have hvar : (given.store.get v).SameGiven (m.store.get v) := h.waiting v hnot
  have hupdates : Updates prepared (prepared.linkPartner v classification) := .linkPartner _ _ _
  have hkeeps : KeepsValues m (prepared.linkPartner v classification) :=
    .linkPrepared hnot classification type types
  have htypes : (prepared.linkPartner v classification).types = types :=
    linkPrepared_types m v classification type types
  obtain ⟨htype, hdomain, hnamed, hlarger⟩ := TypeRegistry.assign_eq_ok h.named hdeclared hassign
  rw [htype] at hdomain
  have hgiven : type = given.types.typeOf (given.store.get v) := by
    have hsame : given.types.typeOf (m.store.get v) = given.types.typeOf (given.store.get v) := by
      rw [TypeRegistry.typeOf, TypeRegistry.typeOf, hvar.declaredType, hvar.domain]
    rw [htype, h.types.typeOf_eq hdeclared hdomain, hsame]
  constructor
  · change (prepared.linkPartner v classification).store.cells.size = _
    rw [hupdates.size, prepare_store, Variables.size_modify, Variables.size_modify, h.size]
  · exact hkeeps.functions.trans h.functions
  · change (prepared.linkPartner v classification).types.Named
    rw [htypes]
    exact hnamed
  · change given.types.WithBuiltins (prepared.linkPartner v classification).types
    rw [htypes]
    exact h.types.trans hlarger
  · intro hnone
    exact absurd hnone (by simp [Model.register])
  · intro w hw
    have hne : v ≠ w := fun heq => hw (heq ▸ Array.mem_push_self)
    have hold : w ∉ m.registered := by
      rw [← hkeeps.registered]
      exact fun hmem => hw (Array.mem_push_of_mem _ hmem)
    have hlinked := (hupdates.cells w).toSameGiven
    rw [prepare_get_of_ne m hne] at hlinked
    exact (h.waiting w hold).trans hlinked
  · intro w hw declared hdeclared'
    change ((prepared.linkPartner v classification).types.get? declared.name).isSome = true
    rw [htypes]
    apply hlarger.isSome
    rcases Array.mem_push.1 hw with hold | rfl
    · exact h.declared w (hkeeps.registered ▸ hold) declared hdeclared'
    · exact hdeclared declared (hvar.declaredType.trans hdeclared')
  · intro w hw
    change (prepared.linkPartner v classification).definition? w = _
    rcases Array.mem_push.1 hw with hold | rfl
    · rw [hkeeps.registered] at hold
      rw [hkeeps.definition? w hold, h.definition? w hold]
    · rw [Model.definition?, (hupdates.cells w).definition?_eq, prepare_get_self m hexist,
        Variable.definition?_classified hclassify, hvar.registeredDefinition?_eq, ← hgiven]

/-- One operation, which is done in both if it sets up something. -/
theorem run (happart : m.RegisteredApart) {op : Operation} (hvalid : op.Valid m)
    (hhand : ¬ op.ChangesByHand m) (htypes : op.TypesFirst m) :
    Registers (if op.SetsUp then op.run given else given) (op.run m) := by
  cases op with
  | makeNodes supply => exact h.of_keepsGiven (.of_eq rfl rfl rfl rfl)
  | create new => exact h.create happart.exist new
  | setDeclaredType v type =>
      exact h.modify hhand fun a b hab => ⟨⟨hab.symbol, hab.domain, hab.causality, hab.variability⟩,
        rfl, hab.attributes⟩
  | setAttribute v name value =>
      refine h.modify hhand fun a b hab => ⟨⟨hab.symbol, hab.domain, hab.causality, hab.variability⟩,
        hab.declaredType, fun name' hname' => ?_⟩
      simp only [Variable.withAttribute, Std.TreeMap.getElem?_insert]
      rw [hab.attributes name' hname']
  | setDerivative v derivative =>
      exact h.of_keepsGiven
        (.modify m v (fun _ => ⟨⟨rfl, rfl, rfl, rfl⟩, rfl, fun _ _ => rfl⟩) fun _ _ => rfl)
  | setDifferentiated v differentiated =>
      exact h.of_keepsGiven
        (.modify m v (fun _ => ⟨⟨rfl, rfl, rfl, rfl⟩, rfl, fun _ _ => rfl⟩) fun _ _ => rfl)
  | setAlias v target negated =>
      exact h.of_keepsGiven
        (.modify m v (fun _ => ⟨⟨rfl, rfl, rfl, rfl⟩, rfl, fun _ _ => rfl⟩) fun _ _ => rfl)
  | addVariable v =>
      change Registers given ((Model.addVariable v).after m)
      rcases addVariable_after m v with heq | ⟨classification, type, types, hfree, hclassify, hassign, heq⟩
      · rw [heq]
        exact h
      · rw [heq]
        exact h.register hvalid (happart.not_mem_registered hfree) hclassify hassign htypes
  | addInitialEquation eq =>
      exact h.of_keepsGiven ((KeepsGiven.learnRelation m eq).trans (.of_eq rfl rfl rfl rfl))
  | addDaeEquation eq =>
      exact h.of_keepsGiven ((KeepsGiven.learnRelation m eq).trans (.of_eq rfl rfl rfl rfl))
  | addType type => exact h.addType htypes
  | setFunction f =>
      refine ⟨h.size, ?_, h.named, h.types, h.unregistered, h.waiting, h.declared, h.definition?⟩
      change m.functions.insert f.name f = given.functions.insert f.name f
      rw [h.functions]
  | setTime symbol => exact h.of_keepsGiven (.of_eq rfl rfl rfl rfl)
  | resolveLinks => exact h.of_keepsGiven (.of_updates (.resolveLinks m))
  | calculate => exact h.of_keepsGiven (.calculate m)
  | evaluate e =>
      refine h.of_keepsGiven ?_
      change KeepsGiven m ((Model.evaluate e).after m)
      rw [evaluate_after]
      split
      · exact .refl m
      · exact .calculate m

end Registers

/-- Every run with the types first registers variables in the model that it sets up. -/
theorem Follows.registers {ops : List Operation} {m : Model}
    (h : Follows (fun m op => ¬ op.ChangesByHand m ∧ op.TypesFirst m) {} ops m) :
    Registers (setUp ops) m := by
  induction h with
  | start => exact .empty
  | @step ops m op hrun hvalid hallowed ih =>
      have hsetUp : setUp (ops ++ [op]) = if op.SetsUp then op.run (setUp ops) else setUp ops := by
        rw [setUp, List.filter_append, List.foldl_append]
        cases hop : op.SetsUp with
        | true => rw [List.filter_cons_of_pos hop]; rfl
        | false => rw [List.filter_cons_of_neg (by simp [hop])]; rfl
      rw [hsetUp]
      exact ih.run (Runs.registeredApart registeredApart_empty hrun.runs) hvalid hallowed.1 hallowed.2

end Model

end FlatDae
