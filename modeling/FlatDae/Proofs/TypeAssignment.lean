/-
Module: FlatDae.Proofs.TypeAssignment
Purpose: The type that registration assigns to a variable. A registry that stores every type under its
  own name has one type for a variable, that of the declared name or else the built-in one, and stores
  at most a built-in type when it is asked. A registry with more built-in types than another one has the
  same types for variables.
Main exports: TypeRegistry.Named, TypeRegistry.typeOf, TypeRegistry.assign_eq_ok,
  TypeRegistry.WithBuiltins, TypeRegistry.WithBuiltins.typeOf_eq
-/
import FlatDae.Proofs.ModelRuns

namespace FlatDae

theorem Domain.ofName?_name (domain : Domain) : Domain.ofName? domain.name = some domain := by
  cases domain <;> decide

theorem Domain.name_injective {d d' : Domain} (h : d.name = d'.name) : d = d' := by
  have hsome : some d = some d' := by rw [← ofName?_name, h, ofName?_name]
  exact Option.some.inj hsome

namespace TypeRegistry

/-- Every type is stored under its own name. -/
def Named (registry : TypeRegistry) : Prop :=
  ∀ (name : String) (type : VariableType), registry.get? name = some type → type.name = name

theorem get?_store (registry : TypeRegistry) (type : VariableType) (name : String) :
    (registry.store type).get? name = if type.name = name then some type else registry.get? name := by
  rw [get?, store, Std.TreeMap.getElem?_insert, get?]
  simp [Std.LawfulEqCmp.compare_eq_iff_eq]

theorem named_empty : Named {} := by
  intro name type h
  simp [get?] at h

theorem Named.store {registry : TypeRegistry} (h : registry.Named) (type : VariableType) :
    (registry.store type).Named := by
  intro name type' hfound
  rw [get?_store] at hfound
  split at hfound
  · rename_i hname
    rw [← Option.some.inj hfound, hname]
  · exact h name type' hfound

theorem add_eq (registry : TypeRegistry) (type : VariableType) :
    registry.add type = (checkBuiltinName type).bind fun _ =>
      match registry.get? type.name with
      | some _ => .error (.duplicateType type.name)
      | none => .ok (registry.store type) := by
  have hcontains : registry.types.contains type.name = (registry.get? type.name).isSome := by
    rw [get?, Std.TreeMap.isSome_getElem?_eq_contains]
  unfold add outcome
  rw [TypeAction.run_add, hcontains]
  cases checkBuiltinName type with
  | error error => rfl
  | ok => cases registry.get? type.name <;> rfl

theorem intern_eq (registry : TypeRegistry) (declared : VariableType) :
    registry.intern declared =
      match registry.get? declared.name with
      | some registered => .ok (registered, registry)
      | none => (checkBuiltinName declared).map fun _ => (declared, registry.store declared) := by
  unfold intern outcome
  rw [TypeAction.run_intern]
  cases registry.get? declared.name with
  | some registered => rfl
  | none => cases checkBuiltinName declared <;> rfl

/-- A type is added exactly if it may have its name and the name is not taken. -/
theorem add_eq_ok_iff {registry larger : TypeRegistry} {type : VariableType} :
    registry.add type = .ok larger ↔
      checkBuiltinName type = .ok () ∧ registry.get? type.name = none ∧ larger = registry.store type := by
  rw [add_eq]
  cases checkBuiltinName type with
  | error error => simp [Except.bind]
  | ok => cases registry.get? type.name <;> simp [Except.bind, eq_comm]

/-- The type that the registry has for a variable: that of the declared name, or the built-in one. -/
def typeOf (registry : TypeRegistry) (var : Variable) : VariableType :=
  match var.declaredType.bind fun declared => registry.get? declared.name with
  | some registered => registered
  | none => (registry.builtin var.domain).1

theorem builtin_eq (registry : TypeRegistry) (domain : Domain) :
    registry.builtin domain =
      match registry.get? domain.name with
      | some registered => (registered, registry)
      | none => (.builtin domain, registry.store (.builtin domain)) := rfl

/-- One more type is no type of variables that declare another one, unless it is named as a built-in
    one. -/
theorem typeOf_store {registry : TypeRegistry} {type : VariableType} {var : Variable}
    (hname : Domain.ofName? type.name = none)
    (hdeclared : ∀ declared, var.declaredType = some declared → declared.name ≠ type.name) :
    (registry.store type).typeOf var = registry.typeOf var := by
  have hbuiltin : ((registry.store type).builtin var.domain).1 = (registry.builtin var.domain).1 := by
    have hne : type.name ≠ var.domain.name := by
      intro heq
      rw [heq, Domain.ofName?_name] at hname
      cases hname
    rw [builtin_eq, builtin_eq, get?_store, if_neg hne]
    cases registry.get? var.domain.name <;> rfl
  unfold typeOf
  rw [hbuiltin]
  cases hvar : var.declaredType with
  | none => rfl
  | some declared =>
      rw [Option.bind_some, Option.bind_some, get?_store, if_neg (hdeclared declared hvar).symm]

/-- The larger registry has the same types, and built-in ones in addition. -/
def WithBuiltins (registry larger : TypeRegistry) : Prop :=
  ∀ name, larger.get? name = registry.get? name ∨
    registry.get? name = none ∧
      ∃ domain : Domain, name = domain.name ∧ larger.get? name = some (.builtin domain)

namespace WithBuiltins

variable {registry larger : TypeRegistry}

theorem refl (registry : TypeRegistry) : WithBuiltins registry registry := fun _ => Or.inl rfl

theorem trans {largest : TypeRegistry} (h : WithBuiltins registry larger)
    (h' : WithBuiltins larger largest) : WithBuiltins registry largest := by
  intro name
  rcases h' name with hsame | ⟨hnone, hnew⟩
  · rw [hsame]
    exact h name
  · rcases h name with hsame | ⟨hmissing, -⟩
    · exact Or.inr ⟨hsame.symm.trans hnone, hnew⟩
    · exact Or.inr ⟨hmissing, hnew⟩

/-- The larger registry still has every type. -/
theorem isSome (h : WithBuiltins registry larger) {name : String}
    (hname : (registry.get? name).isSome = true) : (larger.get? name).isSome = true := by
  rcases h name with hsame | ⟨hnone, -⟩
  · exact hsame ▸ hname
  · rw [hnone] at hname
    cases hname

theorem builtin_eq (h : WithBuiltins registry larger) (domain : Domain) :
    (larger.builtin domain).1 = (registry.builtin domain).1 := by
  rw [TypeRegistry.builtin_eq, TypeRegistry.builtin_eq]
  rcases h domain.name with hsame | ⟨hnone, domain', hname, hfound⟩
  · rw [hsame]
    cases registry.get? domain.name <;> rfl
  · rw [hnone, hfound, Domain.name_injective hname]

/-- A built-in type that is missing may be stored. -/
theorem store_builtin (h : WithBuiltins registry larger) {domain : Domain}
    (hnone : larger.get? domain.name = none) :
    WithBuiltins registry (larger.store (.builtin domain)) := by
  intro name
  rw [get?_store]
  by_cases hname : (VariableType.builtin domain).name = name
  · subst hname
    rw [if_pos rfl]
    refine Or.inr ⟨?_, domain, rfl, rfl⟩
    rcases h domain.name with hsame | ⟨hmissing, -⟩
    · exact hsame.symm.trans hnone
    · exact hmissing
  · rw [if_neg hname]
    exact h name

/-- The same type may be stored in both. -/
theorem store (h : WithBuiltins registry larger) (type : VariableType) :
    WithBuiltins (registry.store type) (larger.store type) := by
  intro name
  rw [get?_store, get?_store]
  by_cases hname : type.name = name
  · rw [if_pos hname, if_pos hname]
    exact Or.inl rfl
  · rw [if_neg hname, if_neg hname]
    exact h name

/-- Only names of built-in types make a difference. -/
theorem get?_eq (h : WithBuiltins registry larger) {name : String}
    (hname : Domain.ofName? name = none) : larger.get? name = registry.get? name := by
  rcases h name with hsame | ⟨-, domain, rfl, -⟩
  · exact hsame
  · rw [Domain.ofName?_name] at hname
    cases hname

/-- Variables whose declared types are there have the same type, if it is of their domain. -/
theorem typeOf_eq (h : WithBuiltins registry larger) {var : Variable}
    (hdeclared : ∀ declared, var.declaredType = some declared →
      (larger.get? declared.name).isSome = true)
    (hdomain : (larger.typeOf var).domain = var.domain) :
    larger.typeOf var = registry.typeOf var := by
  unfold typeOf at hdomain ⊢
  cases hvar : var.declaredType with
  | none =>
      simp only [Option.bind_none]
      exact h.builtin_eq var.domain
  | some declared =>
      simp only [Option.bind_some]
      rcases h declared.name with hsame | ⟨hnone, domain, hname, hfound⟩
      · obtain ⟨registered, hregistered⟩ := Option.isSome_iff_exists.1 (hdeclared declared hvar)
        rw [← hsame, hregistered]
      · -- the declared name is that of a built-in type, which is therefore the one for the domain
        simp only [hvar, Option.bind_some, hfound] at hdomain
        have hsame : domain = var.domain := hdomain
        have hbuiltin : (registry.builtin var.domain).1 = .builtin domain := by
          rw [TypeRegistry.builtin_eq, ← hsame, ← hname, hnone]
        rw [hnone, hfound]
        exact hbuiltin.symm

end WithBuiltins

/-- Of variables whose declared types it has, the registry assigns its type, and stores at most that
    one, if it is a built-in one. -/
theorem assign_eq_ok {registry larger : TypeRegistry} {var : Variable} {type : VariableType}
    (hnamed : registry.Named)
    (hdeclared : ∀ declared, var.declaredType = some declared →
      (registry.get? declared.name).isSome = true)
    (h : registry.assign var = .ok (type, larger)) :
    type = registry.typeOf var ∧ type.domain = var.domain ∧
      larger.Named ∧ WithBuiltins registry larger := by
  unfold assign at h
  unfold typeOf
  cases hvar : var.declaredType with
  | none =>
      simp only [hvar] at h
      simp only [Option.bind_none]
      split at h
      · rename_i hdomain
        obtain ⟨rfl, rfl⟩ := Prod.mk.inj (Except.ok.inj h)
        refine ⟨rfl, hdomain, ?_⟩
        rw [builtin_eq]
        cases hfound : registry.get? var.domain.name with
        | some registered => exact ⟨hnamed, .refl registry⟩
        | none => exact ⟨hnamed.store _, (WithBuiltins.refl registry).store_builtin hfound⟩
      · cases h
  | some declared =>
      obtain ⟨registered, hregistered⟩ := Option.isSome_iff_exists.1 (hdeclared declared hvar)
      simp only [hvar, hregistered, Option.getD_some] at h
      simp only [Option.bind_some, hregistered]
      split at h
      · rename_i hdomain
        have hintern : registry.intern registered = .ok (registered, registry) := by
          rw [intern_eq, hnamed _ _ hregistered, hregistered]
        rw [hintern] at h
        obtain ⟨rfl, rfl⟩ := Prod.mk.inj (Except.ok.inj h)
        exact ⟨rfl, hdomain, hnamed, .refl registry⟩
      · cases h

end TypeRegistry

end FlatDae
