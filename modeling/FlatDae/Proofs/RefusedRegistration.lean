/-
Module: FlatDae.Proofs.RefusedRegistration
Purpose: Registrations that are refused. There are three reasons to refuse a variable: its name is taken,
  it is continuous without being real, or there is no type for it. The last one only arises from a
  declared type, since a reachable model has no type of another domain under the name of a built-in one.
  Whatever the reason is, the model is left as it was, with all that had been looked up on the way.
Main exports: Action.FailsCleanly, TypeRegistry.RefusesNew, TypeRegistry.Refuses, Model.Refuses,
  Model.Reachable.refused_unchanged
-/
import FlatDae.Proofs.TypeKeeping

namespace FlatDae

/-- The action fails for these reasons, each of which it heeds, and only before it has changed
    anything. -/
structure Action.FailsCleanly {σ : Type} (action : Action σ Unit) (s : σ)
    (reason : ModelError → Prop) : Prop where
  succeeds : action.answer s = .ok () ↔ ∀ error, ¬ reason error
  reason : ∀ error, action.answer s = .error error → reason error
  unchanged : ∀ error, action.answer s = .error error → action.after s = s

namespace Action.FailsCleanly

variable {σ : Type} {action : Action σ Unit} {s : σ} {reason : ModelError → Prop}

theorem of_error {error : ModelError} (h : action.run s = .error error s) (hreason : reason error) :
    action.FailsCleanly s reason := by
  have hanswer : action.answer s = .error error := by rw [answer, h]
  have hafter : action.after s = s := by rw [after, h]
  constructor
  · have hfails : action.answer s ≠ .ok () := by simp [hanswer]
    exact iff_of_false hfails fun hnone => hnone error hreason
  · intro error' h'
    rw [hanswer] at h'
    exact Except.error.inj h' ▸ hreason
  · exact fun _ _ => hafter

theorem of_ok {s' : σ} (h : action.run s = .ok () s') (hnone : ∀ error, ¬ reason error) :
    action.FailsCleanly s reason := by
  have hanswer : action.answer s = .ok () := by rw [answer, h]
  refine ⟨iff_of_true hanswer hnone, fun error h' => ?_, fun error h' => ?_⟩ <;>
    rw [hanswer] at h' <;> cases h'

/-- The same for other reasons, of which there are some if there are some of the first. -/
theorem imp (h : action.FailsCleanly s reason) {reason' : ModelError → Prop}
    (hto : ∀ error, reason error → reason' error)
    (hfrom : ∀ error, reason' error → ∃ error', reason error') : action.FailsCleanly s reason' where
  succeeds := h.succeeds.trans
    ⟨fun hnone error hreason => (hfrom error hreason).elim hnone, fun hnone error hreason =>
      hnone error (hto error hreason)⟩
  reason := fun error herror => hto error (h.reason error herror)
  unchanged := h.unchanged

end Action.FailsCleanly

/-- What fails cleanly on the types of a model fails cleanly on the model. -/
theorem Action.FailsCleanly.onTypes {action : TypeAction Unit} {m : Model} {reason : ModelError → Prop}
    (h : action.FailsCleanly m.types reason) : (Model.onTypes action).FailsCleanly m reason := by
  have hanswer : (Model.onTypes action).answer m = action.answer m.types := by
    unfold Action.answer
    rw [Model.onTypes_run]
    cases action.run m.types <;> rfl
  have hafter : (Model.onTypes action).after m = { m with types := action.after m.types } := by
    unfold Action.after
    rw [Model.onTypes_run]
    cases action.run m.types <;> rfl
  refine ⟨hanswer ▸ h.succeeds, hanswer ▸ h.reason, fun error herror => ?_⟩
  rw [hafter, h.unchanged error (hanswer ▸ herror)]

/-- Only a continuous variable that is not real has no class. -/
theorem classify_eq_error_iff {store : Variables} {var : Variable}
    {relations : Array DerivativeRelation} {error : ModelError} :
    classify store var relations = .error error ↔
      var.variability = .continuous ∧ var.domain ≠ .real ∧
        error = .invalidVariability var.name var.domain .continuous := by
  unfold classify
  cases hvariability : var.variability with
  | constant => simp
  | parameter => simp
  | discrete => cases var.causality <;> simp
  | continuous =>
      cases hdomain : var.domain with
      | real => cases var.causality <;> simp
      | _ => simp [eq_comm]

namespace TypeRegistry

/-! ### Types that are refused -/

/-- Why a registry refuses a new type. -/
inductive RefusesNew (registry : TypeRegistry) (type : VariableType) : ModelError → Prop where
  /-- It is named as a built-in type of another domain. -/
  | misnamed {builtin : Domain} (hname : type.name = builtin.name) (hdomain : type.domain ≠ builtin) :
      RefusesNew registry type (.builtinTypeName type.name type.domain)
  | nameTaken (htaken : (registry.get? type.name).isSome = true) :
      RefusesNew registry type (.duplicateType type.name)

variable {registry : TypeRegistry} {type : VariableType} {var : Variable} {error : ModelError}

theorem refusesNew_of_add (h : registry.add type = .error error) : registry.RefusesNew type error := by
  rw [add_eq] at h
  cases hcheck : checkBuiltinName type with
  | error reason =>
      rw [hcheck] at h
      obtain ⟨rfl, builtin, hname, hdomain⟩ := checkBuiltinName_eq_error_iff.1 hcheck
      obtain rfl : ModelError.builtinTypeName type.name type.domain = error := Except.error.inj h
      exact .misnamed hname hdomain
  | ok =>
      rw [hcheck] at h
      cases hfound : registry.get? type.name with
      | none =>
          rw [hfound] at h
          cases h
      | some registered =>
          rw [hfound] at h
          obtain rfl : ModelError.duplicateType type.name = error := Except.error.inj h
          exact .nameTaken (hfound ▸ rfl)

/-- A reason to refuse a type is heeded. -/
theorem RefusesNew.add_ne_ok (h : registry.RefusesNew type error) (larger : TypeRegistry) :
    registry.add type ≠ .ok larger := by
  intro hadd
  obtain ⟨hcheck, hfree, -⟩ := add_eq_ok_iff.1 hadd
  cases h with
  | misnamed hname hdomain => exact hdomain (checkBuiltinName_eq_ok_iff.1 hcheck _ hname)
  | nameTaken htaken =>
      rw [hfree] at htaken
      cases htaken

/-- A type is added if there is no reason to refuse it, and else the registry stays as it is. -/
theorem add_failsCleanly (registry : TypeRegistry) (type : VariableType) :
    (TypeAction.add type).FailsCleanly registry (registry.RefusesNew type) := by
  have hrun := TypeAction.run_add_outcome type registry
  cases hadd : registry.add type with
  | error error =>
      rw [hadd] at hrun
      exact .of_error hrun (refusesNew_of_add hadd)
  | ok larger =>
      rw [hadd] at hrun
      exact .of_ok hrun fun error hrefuses => hrefuses.add_ne_ok larger hadd

/-! ### Variables that there is no type for -/

/-- Why a registry has no type for a variable. -/
inductive Refuses (registry : TypeRegistry) (var : Variable) : ModelError → Prop where
  /-- The type that the declared one stands for has another domain than the variable. -/
  | mismatched {declared : VariableType} (hdeclared : var.declaredType = some declared)
      (hdomain : (registry.resolve declared).domain ≠ var.domain) :
      Refuses registry var
        (.typeMismatch var.name declared.name var.domain (registry.resolve declared).domain)
  /-- The declared type is a new one and is named as a built-in type of another domain. -/
  | misnamed {declared : VariableType} (hdeclared : var.declaredType = some declared)
      (hnew : registry.get? declared.name = none) {builtin : Domain}
      (hname : declared.name = builtin.name) (hdomain : declared.domain ≠ builtin) :
      Refuses registry var (.builtinTypeName declared.name declared.domain)

/-- In a lawful registry there is a type for every variable that declares none. -/
theorem Lawful.refuses_of_assign (hlawful : registry.Lawful) (h : registry.assign var = .error error) :
    registry.Refuses var error := by
  cases hdeclared : var.declaredType with
  | none =>
      rw [hlawful.assign_undeclared hdeclared] at h
      cases h
  | some declared =>
      rw [hlawful.named.assign_declared hdeclared] at h
      split at h
      · obtain ⟨hnew, hcheck⟩ := intern_eq_error_iff.1 h
        obtain ⟨rfl, builtin, hname, hdomain⟩ := checkBuiltinName_eq_error_iff.1 hcheck
        exact .misnamed hdeclared hnew hname hdomain
      · rename_i hdomain
        obtain rfl := Except.error.inj h
        exact .mismatched hdeclared hdomain

/-- A reason not to type a variable is heeded. -/
theorem Refuses.assign_ne_ok (h : registry.Refuses var error) (hlawful : registry.Lawful)
    {type : VariableType} {larger : TypeRegistry} : registry.assign var ≠ .ok (type, larger) := by
  intro hassign
  cases h with
  | mismatched hdeclared hdomain =>
      rw [hlawful.named.assign_declared hdeclared, if_neg hdomain] at hassign
      cases hassign
  | misnamed hdeclared hnew hname hdomain =>
      rw [hlawful.named.assign_declared hdeclared] at hassign
      split at hassign
      · have hcheck := checkBuiltinName_eq_error_iff.2 ⟨rfl, _, hname, hdomain⟩
        rw [intern_eq_error_iff.2 ⟨hnew, hcheck⟩] at hassign
        cases hassign
      · cases hassign

end TypeRegistry

namespace Model

/-! ### Variables that are refused -/

/-- Why a model refuses to register a variable. -/
inductive Refuses (m : Model) (v : VarId) : ModelError → Prop where
  | nameTaken {w : VarId} (hw : w ∈ m.registered)
      (hname : (m.store.get w).name = (m.store.get v).name) :
      Refuses m v (.duplicateVariable (m.store.get v).name)
  | notReal (hvariability : (m.store.get v).variability = .continuous)
      (hdomain : (m.store.get v).domain ≠ .real) :
      Refuses m v (.invalidVariability (m.store.get v).name (m.store.get v).domain .continuous)
  | untyped {error : ModelError} (htype : m.types.Refuses (m.store.get v) error) : Refuses m v error

variable {m : Model}

/-- A registration checks the name, the class and the type, and fails at none of them halfway. -/
theorem addVariable_checks (m : Model) (v : VarId) :
    (addVariable v).FailsCleanly m fun error =>
      (m.names.contains (m.store.get v).name ∧ error = .duplicateVariable (m.store.get v).name) ∨
      classify m.store (m.store.get v) m.relations = .error error ∨
      m.types.assign (m.store.get v) = .error error := by
  have hrun := addVariable_run m v
  by_cases htaken : m.names.contains (m.store.get v).name
  · rw [if_pos htaken] at hrun
    exact .of_error hrun (Or.inl ⟨htaken, rfl⟩)
  rw [if_neg htaken] at hrun
  cases hclassify : classify m.store (m.store.get v) m.relations with
  | error error =>
      rw [hclassify] at hrun
      exact .of_error hrun (Or.inr (Or.inl rfl))
  | ok classification =>
      rw [hclassify] at hrun
      cases hassign : m.types.assign (m.store.get v) with
      | error error =>
          rw [hassign] at hrun
          exact .of_error hrun (Or.inr (Or.inr rfl))
      | ok assigned =>
          rw [hassign] at hrun
          refine .of_ok hrun ?_
          rintro error (⟨hname, -⟩ | hfails | hfails)
          · exact htaken hname
          · cases hfails
          · cases hfails

/-- A variable is registered if there is no reason to refuse it. -/
theorem addVariable_failsCleanly (happart : m.RegisteredApart) (hlawful : m.types.Lawful) (v : VarId) :
    (addVariable v).FailsCleanly m (m.Refuses v) := by
  have htaken (name : String) :
      m.names.contains name = true ↔ ∃ w ∈ m.registered, (m.store.get w).name = name := by
    rw [happart.contains_eq, happart.isSome_findVariable?_iff]
  refine (addVariable_checks m v).imp ?_ ?_
  · rintro error (⟨hname, rfl⟩ | hclassify | hassign)
    · obtain ⟨w, hw, hsame⟩ := (htaken _).1 hname
      exact .nameTaken hw hsame
    · obtain ⟨hvariability, hdomain, rfl⟩ := classify_eq_error_iff.1 hclassify
      exact .notReal hvariability hdomain
    · exact .untyped (hlawful.refuses_of_assign hassign)
  · rintro error hrefuses
    cases hrefuses with
    | nameTaken hw hname => exact ⟨_, Or.inl ⟨(htaken _).2 ⟨_, hw, hname⟩, rfl⟩⟩
    | notReal hvariability hdomain =>
        exact ⟨_, Or.inr (Or.inl (classify_eq_error_iff.2 ⟨hvariability, hdomain, rfl⟩))⟩
    | untyped htype =>
        cases hassign : m.types.assign (m.store.get v) with
        | error error' => exact ⟨error', Or.inr (Or.inr rfl)⟩
        | ok assigned => exact absurd hassign (htype.assign_ne_ok hlawful)

/-- In every reachable model a registration fails for one of the reasons above, and for each of them,
    and leaves the model, its index, its registry and all variables as they were; so does adding a
    type. -/
theorem Reachable.refused_unchanged {allowed : Model → Operation → Prop} (h : m.Reachable allowed) :
    (∀ v, (addVariable v).FailsCleanly m (m.Refuses v)) ∧
    ∀ type, (addType type).FailsCleanly m (m.types.RefusesNew type) :=
  ⟨addVariable_failsCleanly h.registeredApart h.types_lawful,
    fun type => (m.types.add_failsCleanly type).onTypes⟩

/-- A discrete integer variable that declares an integer type called `Real`. -/
def misnamedVariable : Variable :=
  { symbol := .symbol 1 "n"
    domain := .integer
    causality := .internal
    variability := .discrete
    declaredType := some { id := 4, name := "Real", domain := .integer } }

/-- The variable is refused, before the registry has its type. -/
theorem refused_unchanged_misnamed :
    (addVariable ⟨0⟩).answer (Operation.run {} (.create misnamedVariable)) =
        .error (.builtinTypeName "Real" .integer) ∧
      (addVariable ⟨0⟩).after (Operation.run {} (.create misnamedVariable)) =
        Operation.run {} (.create misnamedVariable) := by
  have hreachable : Reachable (fun _ _ => True) (Operation.run {} (.create misnamedVariable)) :=
    .step _ .start rfl trivial
  have hanswer : (addVariable ⟨0⟩).answer (Operation.run {} (.create misnamedVariable)) =
      .error (.builtinTypeName "Real" .integer) := by rfl
  exact ⟨hanswer, ((Reachable.refused_unchanged hreachable).1 ⟨0⟩).unchanged _ hanswer⟩

end Model

end FlatDae
