/-
Module: FlatDae.Proofs.TypeKeeping
Purpose: The types of a model in the course of a run. A registry is lawful if every type is stored under
  its own name and a type that is named as a built-in one has its domain. Operations keep it lawful and
  every type in it the same; the type that registration assigns is the registry's own, and has the
  domain of the variable.
Main exports: TypeRegistry.Lawful, TypeRegistry.Extends, TypeRegistry.Gains,
  TypeRegistry.Lawful.assign_spec, Operation.run_types, Model.Runs.types, Model.Reachable.types_lawful
-/
import FlatDae.Proofs.RegistrationOrder

namespace FlatDae

theorem Domain.ofName?_eq_some_iff {name : String} {domain : Domain} :
    Domain.ofName? name = some domain ↔ name = domain.name := by
  constructor
  · intro h
    unfold ofName? at h
    split at h <;> cases h <;> rfl
  · rintro rfl
    exact ofName?_name domain

namespace TypeRegistry

/-- A type may not have the name of a built-in one of another domain. -/
theorem checkBuiltinName_eq_error_iff {type : VariableType} {error : ModelError} :
    checkBuiltinName type = .error error ↔
      error = .builtinTypeName type.name type.domain ∧
        ∃ domain : Domain, type.name = domain.name ∧ type.domain ≠ domain := by
  unfold checkBuiltinName
  cases hname : Domain.ofName? type.name with
  | none =>
      refine ⟨(nomatch ·), ?_⟩
      rintro ⟨-, domain, heq, -⟩
      rw [Domain.ofName?_eq_some_iff.2 heq] at hname
      cases hname
  | some domain =>
      have hsame : type.name = domain.name := Domain.ofName?_eq_some_iff.1 hname
      by_cases hdomain : domain = type.domain
      · simp only [beq_iff_eq, hdomain, if_true]
        refine ⟨(nomatch ·), ?_⟩
        rintro ⟨-, domain', heq, hne⟩
        exact absurd (hdomain.symm.trans (Domain.name_injective (hsame.symm.trans heq))) hne
      · simp only [beq_iff_eq, hdomain, if_false]
        refine ⟨fun herror => ?_, fun h => by rw [h.1]⟩
        exact ⟨(Except.error.inj herror).symm, domain, hsame, Ne.symm hdomain⟩

theorem checkBuiltinName_eq_ok_iff {type : VariableType} :
    checkBuiltinName type = .ok () ↔ ∀ domain : Domain, type.name = domain.name → type.domain = domain := by
  cases hcheck : checkBuiltinName type with
  | error error =>
      obtain ⟨-, domain, hname, hne⟩ := checkBuiltinName_eq_error_iff.1 hcheck
      exact ⟨(nomatch ·), fun h => absurd (h domain hname) hne⟩
  | ok =>
      refine ⟨fun _ domain hname => ?_, fun _ => rfl⟩
      by_contra hne
      rw [checkBuiltinName_eq_error_iff.2 ⟨rfl, domain, hname, hne⟩] at hcheck
      cases hcheck

/-- Only a new type can fail to be interned, if it may not have its name. -/
theorem intern_eq_error_iff {registry : TypeRegistry} {declared : VariableType} {error : ModelError} :
    registry.intern declared = .error error ↔
      registry.get? declared.name = none ∧ checkBuiltinName declared = .error error := by
  rw [intern_eq]
  cases registry.get? declared.name with
  | some registered => simp
  | none => cases checkBuiltinName declared <;> simp [Except.map]

/-- The type that a declared one stands for: the one that the registry has under its name, or the
    declared type itself. -/
def resolve (registry : TypeRegistry) (declared : VariableType) : VariableType :=
  (registry.get? declared.name).getD declared

namespace Named

variable {registry : TypeRegistry} (h : registry.Named) (declared : VariableType)
include h

theorem resolve_name : (registry.resolve declared).name = declared.name := by
  unfold resolve
  cases hfound : registry.get? declared.name with
  | none => rfl
  | some registered => exact h _ _ hfound

/-- It makes no difference which of the two is interned. -/
theorem intern_resolve : registry.intern (registry.resolve declared) = registry.intern declared := by
  rw [intern_eq, intern_eq, h.resolve_name, resolve]
  cases registry.get? declared.name <;> rfl

end Named

/-! ### Lawful registries -/

/-- Every type is stored under its own name, and under that of a built-in type there is one of its
    domain at most. -/
structure Lawful (registry : TypeRegistry) : Prop where
  named : registry.Named
  builtin : ∀ (domain : Domain) (type : VariableType),
    registry.get? domain.name = some type → type.domain = domain

theorem lawful_empty : Lawful {} := ⟨named_empty, fun _ _ h => by simp [get?] at h⟩

namespace Lawful

variable {registry : TypeRegistry} (h : registry.Lawful)
include h

/-- A type may be stored under a name that it may have. -/
theorem store {type : VariableType} (hcheck : checkBuiltinName type = .ok ()) :
    (registry.store type).Lawful where
  named := h.named.store type
  builtin := by
    intro domain type' hfound
    rw [get?_store] at hfound
    split at hfound
    · rename_i hname
      obtain rfl := Option.some.inj hfound
      exact checkBuiltinName_eq_ok_iff.1 hcheck domain hname
    · exact h.builtin domain type' hfound

/-- The type for a domain has that domain. -/
theorem builtin_domain (domain : Domain) : (registry.builtin domain).1.domain = domain := by
  rw [builtin_eq]
  cases hfound : registry.get? domain.name with
  | none => rfl
  | some registered => exact h.builtin domain registered hfound

end Lawful

theorem checkBuiltinName_builtin (domain : Domain) :
    checkBuiltinName (.builtin domain) = .ok () :=
  checkBuiltinName_eq_ok_iff.2 fun _ hname => Domain.name_injective hname

/-! ### Registries that grow -/

/-- Every type is still there under its name. -/
def Extends (registry larger : TypeRegistry) : Prop :=
  ∀ name type, registry.get? name = some type → larger.get? name = some type

namespace Extends

variable {registry larger : TypeRegistry}

theorem refl (registry : TypeRegistry) : Extends registry registry := fun _ _ h => h

theorem trans {largest : TypeRegistry} (h : Extends registry larger) (h' : Extends larger largest) :
    Extends registry largest :=
  fun name type hfound => h' name type (h name type hfound)

/-- Storing a type under a name that is free replaces none. -/
theorem store {type : VariableType} (hfree : registry.get? type.name = none) :
    Extends registry (registry.store type) := by
  intro name type' hfound
  rw [get?_store, if_neg, hfound]
  rintro rfl
  rw [hfree] at hfound
  cases hfound

end Extends

/-- The registry has grown in a lawful way and has the type. -/
structure Gains (registry : TypeRegistry) (type : VariableType) (larger : TypeRegistry) : Prop where
  found : larger.get? type.name = some type
  lawful : larger.Lawful
  keeps : registry.Extends larger

/-- A registry that has the type need not grow. -/
theorem Lawful.gains_self {registry : TypeRegistry} (h : registry.Lawful) {name : String}
    {type : VariableType} (hfound : registry.get? name = some type) : registry.Gains type registry where
  found := by rw [h.named _ _ hfound, hfound]
  lawful := h
  keeps := .refl registry

/-- A type is stored if it may have its name and the name is free. -/
theorem Lawful.gains_store {registry : TypeRegistry} (h : registry.Lawful) {type : VariableType}
    (hcheck : checkBuiltinName type = .ok ()) (hfree : registry.get? type.name = none) :
    registry.Gains type (registry.store type) where
  found := by rw [get?_store, if_pos rfl]
  lawful := h.store hcheck
  keeps := .store hfree

theorem Lawful.gains_builtin {registry : TypeRegistry} (h : registry.Lawful) (domain : Domain) :
    registry.Gains (registry.builtin domain).1 (registry.builtin domain).2 := by
  rw [builtin_eq]
  cases hfound : registry.get? domain.name with
  | none => exact h.gains_store (checkBuiltinName_builtin domain) hfound
  | some registered => exact h.gains_self hfound

/-- Interning gives the type that the declared one stands for. -/
theorem Lawful.intern_spec {registry larger : TypeRegistry} (h : registry.Lawful)
    {declared type : VariableType} (hintern : registry.intern declared = .ok (type, larger)) :
    type = registry.resolve declared ∧ registry.Gains type larger := by
  rw [intern_eq] at hintern
  unfold resolve
  cases hfound : registry.get? declared.name with
  | some registered =>
      rw [hfound] at hintern
      obtain ⟨rfl, rfl⟩ := Prod.mk.inj (Except.ok.inj hintern)
      exact ⟨rfl, h.gains_self hfound⟩
  | none =>
      rw [hfound] at hintern
      cases hcheck : checkBuiltinName declared with
      | error error =>
          rw [hcheck] at hintern
          cases hintern
      | ok =>
          rw [hcheck] at hintern
          obtain ⟨rfl, rfl⟩ := Prod.mk.inj (Except.ok.inj hintern)
          exact ⟨rfl, h.gains_store hcheck hfound⟩

/-! ### The type that a variable gets -/

/-- Without a declared type, a variable gets the type of its domain. -/
theorem Lawful.assign_undeclared {registry : TypeRegistry} (h : registry.Lawful) {var : Variable}
    (hdeclared : var.declaredType = none) :
    registry.assign var = .ok (registry.builtin var.domain) := by
  unfold assign
  rw [hdeclared]
  exact if_pos (h.builtin_domain var.domain)

/-- With one, it gets the type that the declared one stands for. -/
theorem Named.assign_declared {registry : TypeRegistry} (h : registry.Named) {var : Variable}
    {declared : VariableType} (hdeclared : var.declaredType = some declared) :
    registry.assign var =
      if (registry.resolve declared).domain = var.domain then registry.intern declared
      else .error (.typeMismatch var.name declared.name var.domain (registry.resolve declared).domain) := by
  rw [← h.intern_resolve, ← h.resolve_name]
  unfold assign
  rw [hdeclared]
  rfl

/-- An assigned type has the domain of the variable. -/
theorem Lawful.assign_spec {registry larger : TypeRegistry} (h : registry.Lawful) {var : Variable}
    {type : VariableType} (hassign : registry.assign var = .ok (type, larger)) :
    type.domain = var.domain ∧ registry.Gains type larger := by
  cases hdeclared : var.declaredType with
  | none =>
      rw [h.assign_undeclared hdeclared] at hassign
      obtain ⟨rfl, rfl⟩ := Prod.mk.inj (Except.ok.inj hassign)
      exact ⟨h.builtin_domain var.domain, h.gains_builtin var.domain⟩
  | some declared =>
      rw [h.named.assign_declared hdeclared] at hassign
      split at hassign
      · rename_i hdomain
        obtain ⟨rfl, hgains⟩ := h.intern_spec hassign
        exact ⟨hdomain, hgains⟩
      · cases hassign

theorem Lawful.add_spec {registry larger : TypeRegistry} (h : registry.Lawful) {type : VariableType}
    (hadd : registry.add type = .ok larger) : registry.Gains type larger := by
  obtain ⟨hcheck, hfree, rfl⟩ := add_eq_ok_iff.1 hadd
  exact h.gains_store hcheck hfree

end TypeRegistry

/-! ### Types along a run -/

open Model in
/-- Every operation keeps the types that there are and keeps the registry lawful. -/
theorem Operation.run_types {m : Model} (h : m.types.Lawful) (op : Operation) :
    (op.run m).types.Lawful ∧ m.types.Extends (op.run m).types := by
  have heffect := op.effect m
  generalize op.run m = m' at heffect ⊢
  have of_eq (heq : m'.types = m.types) : m'.types.Lawful ∧ m.types.Extends m'.types := by
    rw [heq]
    exact ⟨h, .refl _⟩
  cases heffect with
  | register v classification type types hfree hclassify hassign =>
      have hgains := (h.assign_spec hassign).2
      have htypes : (m.register v classification type types).types = types :=
        linkPrepared_types m v classification type types
      rw [htypes]
      exact ⟨hgains.lawful, hgains.keeps⟩
  | addType type types hadd =>
      have hgains := h.add_spec hadd
      exact ⟨hgains.lawful, hgains.keeps⟩
  | addInitialEquation eq => exact of_eq (KeepsGiven.learnRelation m eq).types
  | addDaeEquation eq => exact of_eq (KeepsGiven.learnRelation m eq).types
  | resolveLinks => exact of_eq (KeepsGiven.of_updates (.resolveLinks m)).types
  | calculate op => exact of_eq (KeepsGiven.calculate m).types
  | _ => exact of_eq rfl

namespace Model

variable {allowed : Model → Operation → Prop} {m m' : Model}

/-- So does every run. -/
theorem Runs.types (hlawful : m.types.Lawful) (h : m.Runs allowed m') :
    m'.types.Lawful ∧ m.types.Extends m'.types := by
  induction h with
  | start => exact ⟨hlawful, .refl _⟩
  | step op _ _ _ ih =>
      obtain ⟨hlawful', hextends⟩ := op.run_types ih.1
      exact ⟨hlawful', ih.2.trans hextends⟩

theorem Reachable.types_lawful (h : m.Reachable allowed) : m.types.Lawful :=
  (Runs.types TypeRegistry.lawful_empty h).1

end Model

end FlatDae
