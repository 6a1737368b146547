/-
Module: FlatDae.Proofs.ModelRuns
Purpose: Runs of a model. An operation leaves a model behind whether it succeeds or fails; the models
  that come about by operations from the empty one are the reachable ones. Registering a variable,
  which can fail at three places, is said once as a whole: it fails without a trace, or it classifies,
  types, links and registers the variable. The same is said of adding and of interning a type.
Main exports: Action.answer, Action.after, Operation, Operation.run, Model.Runs, Model.Reachable,
  Model.Follows, TypeAction.run_add_outcome, TypeAction.run_intern_outcome, Model.register,
  Model.addVariable_run
-/
import FlatDae.Model.Parameters
import FlatDae.Model.Registration

namespace FlatDae

/-! ### Actions -/

namespace Action

variable {σ α : Type}

/-- What an action answers in a state. -/
def answer (action : Action σ α) (s : σ) : Except ModelError α :=
  match action.run s with
  | .ok a _ => .ok a
  | .error error _ => .error error

/-- The state that an action leaves behind, also when it fails. -/
def after (action : Action σ α) (s : σ) : σ :=
  match action.run s with
  | .ok _ s' => s'
  | .error _ s' => s'

/-- A result stands for the action that answers it and changes nothing. -/
theorem run_ofExcept (result : Except ModelError α) (s : σ) :
    EStateM.run (MonadExcept.ofExcept result : Action σ α) s =
      match result with
      | .ok a => .ok a s
      | .error error => .error error s := by
  cases result <;> rfl

end Action

/-! ### Operations -/

/-- What can be done with a model and with its variables. -/
inductive Operation where
  /-- Nodes are made, so that others are next. -/
  | makeNodes (supply : Supply)
  | create (new : Variable)
  | setDeclaredType (v : VarId) (type : VariableType)
  | setAttribute (v : VarId) (name : String) (value : Attribute)
  | setDerivative (v derivative : VarId)
  | setDifferentiated (v differentiated : VarId)
  | setAlias (v target : VarId) (negated : Bool)
  | addVariable (v : VarId)
  | addInitialEquation (eq : Equation)
  | addDaeEquation (eq : Equation)
  | addType (type : VariableType)
  | setFunction (f : ModelFunction)
  | setTime (symbol : Expr)
  | resolveLinks
  | calculate
  | evaluate (e : Expr)

namespace Operation

/-- The model after an operation, whether it succeeds or fails. -/
def run (m : Model) : Operation → Model
  | .makeNodes supply => { m with supply }
  | .create new => (m.createVariable new).2
  | .setDeclaredType v type => m.modifyVariable v fun var => { var with declaredType := some type }
  | .setAttribute v name value => m.modifyVariable v (·.withAttribute name value)
  | .setDerivative v derivative =>
    m.modifyVariable v fun var => { var with derivative := some derivative }
  | .setDifferentiated v differentiated =>
    m.modifyVariable v fun var => { var with differentiated := some differentiated }
  | .setAlias v target negated =>
    m.modifyVariable v fun var => { var with aliasOf := some { target, negated } }
  | .addVariable v => (Model.addVariable v).after m
  | .addInitialEquation eq => m.addInitialEquation eq
  | .addDaeEquation eq => m.addDaeEquation eq
  | .addType type => (Model.addType type).after m
  | .setFunction f => m.setFunction f
  | .setTime symbol => { m with time := some symbol }
  | .resolveLinks => m.resolveLinks.2
  | .calculate => Model.calculate.after m
  | .evaluate e => (Model.evaluate e).after m

/-- New variables have no kind, and only a variable that there is can be registered. -/
def Valid (m : Model) : Operation → Prop
  | .create new => new.kind = none
  | .addVariable v => v.index < m.store.cells.size
  | _ => True

/-- Whether the operation changes an attribute or the type of a registered variable by hand. -/
def ChangesByHand (m : Model) : Operation → Prop
  | .setDeclaredType v _ => v ∈ m.registered
  | .setAttribute v _ _ => v ∈ m.registered
  | _ => False

end Operation

/-- The models that come about from a model by valid operations that are `allowed`. -/
inductive Model.Runs (allowed : Model → Operation → Prop) (m₀ : Model) : Model → Prop where
  | start : Runs allowed m₀ m₀
  | step {m : Model} (op : Operation) (h : Runs allowed m₀ m) (hvalid : op.Valid m)
      (hallowed : allowed m op) : Runs allowed m₀ (op.run m)

/-- The models that come about from the empty one by valid operations that are `allowed`. -/
def Model.Reachable (allowed : Model → Operation → Prop) (m : Model) : Prop := Runs allowed {} m

/-- The same with the operations, in order, that lead to the model. -/
inductive Model.Follows (allowed : Model → Operation → Prop) (m₀ : Model) :
    List Operation → Model → Prop where
  | start : Follows allowed m₀ [] m₀
  | step {ops : List Operation} {m : Model} (op : Operation) (h : Follows allowed m₀ ops m)
      (hvalid : op.Valid m) (hallowed : allowed m op) : Follows allowed m₀ (ops ++ [op]) (op.run m)

theorem Model.Follows.runs {allowed : Model → Operation → Prop} {m₀ m : Model} {ops : List Operation}
    (h : Follows allowed m₀ ops m) : Runs allowed m₀ m := by
  induction h with
  | start => exact .start
  | step op _ hvalid hallowed ih => exact .step op ih hvalid hallowed

/-! ### The store of variables -/

namespace Variables

/-- Changing a variable that there is changes it, and no other. -/
theorem get_modify (store : Variables) (v w : VarId) (f : Variable → Variable) :
    (store.modify v f).get w =
      if v = w ∧ v.index < store.cells.size then f (store.get w) else store.get w := by
  obtain ⟨i⟩ := v
  obtain ⟨j⟩ := w
  simp only [get, modify, Array.getD_eq_getD_getElem?, Array.getElem?_modify, VarId.mk.injEq]
  by_cases hij : i = j
  · subst hij
    by_cases hsize : i < store.cells.size
    · simp [hsize]
    · simp [hsize]
  · simp [hij]

theorem get_modify_of_ne (store : Variables) {v w : VarId} (h : v ≠ w) (f : Variable → Variable) :
    (store.modify v f).get w = store.get w := by
  rw [get_modify, if_neg fun hv => h hv.1]

/-- What a change leaves alone in a variable, it leaves alone in all of them. -/
theorem get_modify_same {β : Type} (store : Variables) (v w : VarId) {f : Variable → Variable}
    {field : Variable → β} (h : ∀ var, field (f var) = field var) :
    field ((store.modify v f).get w) = field (store.get w) := by
  rw [get_modify]
  split
  · exact h _
  · rfl

@[simp] theorem size_modify (store : Variables) (v : VarId) (f : Variable → Variable) :
    (store.modify v f).cells.size = store.cells.size := by
  simp [modify]

/-- A variable that is made gets the next identity. -/
theorem get_create_eq (store : Variables) (new : Variable) (w : VarId) :
    (store.create new).2.get w = if w.index = store.cells.size then new else store.get w := by
  simp only [get, create, Array.getD_eq_getD_getElem?, Array.getElem?_push]
  split <;> rfl

/-- Making a variable leaves those that there are alone. -/
theorem get_create (store : Variables) (new : Variable) {w : VarId}
    (h : w.index < store.cells.size) : (store.create new).2.get w = store.get w := by
  rw [get_create_eq, if_neg (Nat.ne_of_lt h)]

end Variables

/-! ### Actions on types -/

namespace TypeAction

/-- The checks of a new type come before the change. -/
theorem run_add (type : VariableType) (registry : TypeRegistry) :
    (add type).run registry =
      match TypeRegistry.checkBuiltinName type with
      | .error error => .error error registry
      | .ok () =>
        if registry.types.contains type.name then .error (.duplicateType type.name) registry
        else .ok () (registry.store type) := by
  unfold add
  simp only [EStateM.run_bind, Action.run_ofExcept]
  cases TypeRegistry.checkBuiltinName type with
  | error error => rfl
  | ok =>
      simp only [EStateM.run_get]
      split <;> rfl

theorem run_intern (declared : VariableType) (registry : TypeRegistry) :
    (intern declared).run registry =
      match registry.get? declared.name with
      | some registered => .ok registered registry
      | none =>
        match TypeRegistry.checkBuiltinName declared with
        | .error error => .error error registry
        | .ok () => .ok declared (registry.store declared) := by
  unfold intern
  simp only [EStateM.run_bind, EStateM.run_get]
  cases registry.get? declared.name with
  | some registered => rfl
  | none =>
      simp only [EStateM.run_bind, Action.run_ofExcept]
      cases TypeRegistry.checkBuiltinName declared <;> rfl

/-- A type is added or the registry stays as it is. -/
theorem run_add_outcome (type : VariableType) (registry : TypeRegistry) :
    (add type).run registry =
      match registry.add type with
      | .ok larger => .ok () larger
      | .error error => .error error registry := by
  unfold TypeRegistry.add TypeRegistry.outcome
  rw [run_add]
  cases TypeRegistry.checkBuiltinName type with
  | error error => rfl
  | ok =>
      dsimp only
      split <;> rfl

/-- A type is interned or the registry stays as it is. -/
theorem run_intern_outcome (declared : VariableType) (registry : TypeRegistry) :
    (intern declared).run registry =
      match registry.intern declared with
      | .ok (type, larger) => .ok type larger
      | .error error => .error error registry := by
  unfold TypeRegistry.intern TypeRegistry.outcome
  rw [run_intern]
  cases registry.get? declared.name with
  | some registered => rfl
  | none => cases TypeRegistry.checkBuiltinName declared <;> rfl

end TypeAction

/-! ### Registration as a whole -/

/-- The type for a variable, with the registry that has it: the registry's object for the declared
    type or the one for the domain. -/
def TypeRegistry.assign (registry : TypeRegistry) (var : Variable) :
    Except ModelError (VariableType × TypeRegistry) :=
  match var.declaredType with
  | some declared =>
    let found := (registry.get? declared.name).getD declared
    if found.domain = var.domain then registry.intern found
    else .error (.typeMismatch var.name found.name var.domain found.domain)
  | none =>
    let (found, registry) := registry.builtin var.domain
    if found.domain = var.domain then .ok (found, registry)
    else .error (.typeMismatch var.name found.name var.domain found.domain)

namespace Model

/-- The model with a variable that is classified and has a type, and with the derivative relation that
    the variable brings with it. -/
def prepare (m : Model) (v : VarId) (classification : Classification) (type : VariableType)
    (types : TypeRegistry) : Model :=
  let typed := { m with types }.modifyVariable v fun var => { var with declaredType := some type }
  let classified := typed.modifyVariable v fun var => { var with kind := some classification.kind }
  match (m.store.get v).differentiated with
  | some differentiated =>
    { classified with
      relations := classified.relations.push
        { derivative := (m.store.get v).symbol
          differentiated := (m.store.get differentiated).symbol } }
  | none => classified

/-- Preparing a variable changes that one. -/
theorem prepare_store (m : Model) (v : VarId) (classification : Classification) (type : VariableType)
    (types : TypeRegistry) :
    (m.prepare v classification type types).store =
      (m.store.modify v fun var => { var with declaredType := some type }).modify v fun var =>
        { var with kind := some classification.kind } := by
  unfold prepare
  split <;> rfl

theorem prepare_types (m : Model) (v : VarId) (classification : Classification) (type : VariableType)
    (types : TypeRegistry) : (m.prepare v classification type types).types = types := by
  unfold prepare
  split <;> rfl

/-- Preparing a variable sets its type and its kind. -/
theorem prepare_get_self (m : Model) {v : VarId} (hexist : v.index < m.store.cells.size)
    (classification : Classification) (type : VariableType) (types : TypeRegistry) :
    (m.prepare v classification type types).store.get v =
      { m.store.get v with declaredType := some type, kind := some classification.kind } := by
  rw [prepare_store, Variables.get_modify, if_pos ⟨rfl, by rwa [Variables.size_modify]⟩,
    Variables.get_modify, if_pos ⟨rfl, hexist⟩]

theorem prepare_get_of_ne (m : Model) {v w : VarId} (h : v ≠ w) (classification : Classification)
    (type : VariableType) (types : TypeRegistry) :
    (m.prepare v classification type types).store.get w = m.store.get w := by
  rw [prepare_store, Variables.get_modify_of_ne _ h, Variables.get_modify_of_ne _ h]

/-- The model with a variable prepared, linked and registered. -/
def register (m : Model) (v : VarId) (classification : Classification) (type : VariableType)
    (types : TypeRegistry) : Model :=
  let linked := (m.prepare v classification type types).linkPartner v classification
  { linked with
    registered := linked.registered.push v
    names := linked.names.insert (m.store.get v).name linked.registered.size
    parametersValid := false }

/-- A registry that has a type of a wrong domain for a built-in one is not changed by asking for it. -/
theorem builtin_of_domain_ne {registry : TypeRegistry} {domain : Domain}
    (h : (registry.builtin domain).1.domain ≠ domain) : (registry.builtin domain).2 = registry := by
  unfold TypeRegistry.builtin at h ⊢
  cases hfound : registry.get? domain.name with
  | some registered => rfl
  | none =>
      rw [hfound] at h
      exact absurd rfl h

/-- An action on types changes nothing else, also when it fails. -/
theorem onTypes_run {α : Type} (action : TypeAction α) (m : Model) :
    (onTypes action).run m =
      match action.run m.types with
      | .ok a types => .ok a { m with types }
      | .error error types => .error error { m with types } := rfl

/-- A type is added or the model stays as it is. -/
theorem addType_run (m : Model) (type : VariableType) :
    (addType type).run m =
      match m.types.add type with
      | .ok types => .ok () { m with types }
      | .error error => .error error m := by
  rw [addType, onTypes_run, TypeAction.run_add_outcome]
  cases m.types.add type <;> rfl

/-- A type is assigned or the model stays as it is. -/
theorem assignType_run (m : Model) (v : VarId) :
    (assignType v).run m =
      match m.types.assign (m.store.get v) with
      | .error error => .error error m
      | .ok (type, types) =>
        .ok () ({ m with types }.modifyVariable v fun var => { var with declaredType := some type }) := by
  unfold assignType TypeRegistry.assign
  simp only [EStateM.run_bind, EStateM.run_get]
  cases hdeclared : (m.store.get v).declaredType with
  | none =>
      have hbuiltin : (onTypes (.builtin (m.store.get v).domain)).run m =
          .ok (m.types.builtin (m.store.get v).domain).1
            { m with types := (m.types.builtin (m.store.get v).domain).2 } := rfl
      simp only [EStateM.run_bind, hbuiltin]
      by_cases hdomain : (m.types.builtin (m.store.get v).domain).1.domain = (m.store.get v).domain
      · simp only [hdomain, bne_self_eq_false, Bool.false_eq_true, if_false, if_true]
        rfl
      · simp only [bne_iff_ne.2 hdomain, hdomain, if_true, if_false, builtin_of_domain_ne hdomain]
        rfl
  | some declared =>
      simp only [pure_bind]
      by_cases hdomain :
          ((m.types.get? declared.name).getD declared).domain = (m.store.get v).domain
      · simp only [hdomain, bne_self_eq_false, Bool.false_eq_true, if_false, if_true, EStateM.run_bind,
          onTypes_run, TypeAction.run_intern_outcome]
        cases m.types.intern ((m.types.get? declared.name).getD declared) <;> rfl
      · simp only [bne_iff_ne.2 hdomain, hdomain, if_true, if_false]
        rfl

/-- A variable is registered or the model stays as it is. -/
theorem addVariable_run (m : Model) (v : VarId) :
    (addVariable v).run m =
      if m.names.contains (m.store.get v).name then
        .error (.duplicateVariable (m.store.get v).name) m
      else
        match classify m.store (m.store.get v) m.relations with
        | .error error => .error error m
        | .ok classification =>
          match m.types.assign (m.store.get v) with
          | .error error => .error error m
          | .ok (type, types) => .ok () (m.register v classification type types) := by
  unfold addVariable
  simp only [EStateM.run_bind, EStateM.run_get]
  by_cases htaken : m.names.contains (m.store.get v).name
  · rw [if_pos htaken, if_pos htaken]
    rfl
  · rw [if_neg htaken, if_neg htaken]
    simp only [EStateM.run_bind, Action.run_ofExcept]
    cases classify m.store (m.store.get v) m.relations with
    | error error => rfl
    | ok classification =>
        simp only [assignType_run]
        cases m.types.assign (m.store.get v) with
        | error error => rfl
        | ok assigned =>
            simp only [register, prepare]
            cases (m.store.get v).differentiated <;> rfl

end Model

end FlatDae
