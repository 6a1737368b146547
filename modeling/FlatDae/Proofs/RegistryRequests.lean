/-
Module: FlatDae.Proofs.RegistryRequests
Purpose: What a registry of types can be asked, in any order: to add a type, to intern a declared one, or
  for the type of a domain. A registry that was empty at first stays lawful and loses no type, the type
  of a domain has that domain, and a request that fails leaves it as it was. The registry of a reachable
  model comes about like this, so that a variable without a declared type is never refused because of
  its type.
Main exports: TypeRegistry.Request, TypeRegistry.Request.action, TypeRegistry.RefusesRequest,
  TypeRegistry.Lawful.request_spec, Model.Reachable.types_requested, TypeRegistry.afterAll_keeps
-/
import FlatDae.Proofs.RefusedRegistration

namespace FlatDae

namespace TypeRegistry

/-! ### Requests -/

/-- What can be asked of a registry. -/
inductive Request where
  | add (type : VariableType)
  | intern (declared : VariableType)
  | builtin (domain : Domain)

namespace Request

/-- What a request has the registry do. It is answered with a type. -/
def action : Request → TypeAction VariableType
  | .add type => do
    TypeAction.add type
    return type
  | .intern declared => .intern declared
  | .builtin domain => .builtin domain

/-- The registry after a request, whether it succeeds or fails. -/
def after (registry : TypeRegistry) (request : Request) : TypeRegistry := request.action.after registry

theorem run_add (type : VariableType) (registry : TypeRegistry) :
    (add type).action.run registry =
      match registry.add type with
      | .ok larger => .ok type larger
      | .error error => .error error registry := by
  unfold action
  rw [EStateM.run_bind, TypeAction.run_add_outcome]
  cases registry.add type <;> rfl

theorem run_intern (declared : VariableType) (registry : TypeRegistry) :
    (intern declared).action.run registry =
      match registry.intern declared with
      | .ok (type, larger) => .ok type larger
      | .error error => .error error registry :=
  TypeAction.run_intern_outcome declared registry

end Request

/-- The registry after some requests. -/
def afterAll (registry : TypeRegistry) (requests : List Request) : TypeRegistry :=
  requests.foldl Request.after registry

/-- Why a request fails. There is a type for every domain. -/
inductive RefusesRequest (registry : TypeRegistry) : Request → ModelError → Prop where
  | add {type : VariableType} {error : ModelError} (hrefuses : registry.RefusesNew type error) :
      RefusesRequest registry (.add type) error
  /-- The declared type is a new one and is named as a built-in type of another domain. -/
  | intern {declared : VariableType} (hnew : registry.get? declared.name = none) {builtin : Domain}
      (hname : declared.name = builtin.name) (hdomain : declared.domain ≠ builtin) :
      RefusesRequest registry (.intern declared) (.builtinTypeName declared.name declared.domain)

variable {registry larger : TypeRegistry}

/-! ### One request -/

/-- A request is answered with a type that the registry then has, unless there is a reason to refuse it,
    and then the registry is left as it was. -/
theorem Lawful.request_spec (h : registry.Lawful) (request : Request) :
    match request.action.run registry with
    | .ok type larger => registry.Gains type larger ∧ ∀ error, ¬ registry.RefusesRequest request error
    | .error error left => registry.RefusesRequest request error ∧ left = registry := by
  cases request with
  | add type =>
      rw [Request.run_add]
      cases hadd : registry.add type with
      | error error => exact ⟨.add (refusesNew_of_add hadd), rfl⟩
      | ok larger =>
          refine ⟨h.add_spec hadd, fun error hrefuses => ?_⟩
          cases hrefuses with
          | add hrefuses => exact hrefuses.add_ne_ok larger hadd
  | intern declared =>
      rw [Request.run_intern]
      cases hintern : registry.intern declared with
      | error error =>
          obtain ⟨hnew, hcheck⟩ := intern_eq_error_iff.1 hintern
          obtain ⟨rfl, builtin, hname, hdomain⟩ := checkBuiltinName_eq_error_iff.1 hcheck
          exact ⟨.intern hnew hname hdomain, rfl⟩
      | ok answered =>
          refine ⟨(h.intern_spec hintern).2, fun error hrefuses => ?_⟩
          cases hrefuses with
          | intern hnew hname hdomain =>
              have hcheck := checkBuiltinName_eq_error_iff.2 ⟨rfl, _, hname, hdomain⟩
              rw [intern_eq_error_iff.2 ⟨hnew, hcheck⟩] at hintern
              cases hintern
  | builtin domain => exact ⟨h.gains_builtin domain, nofun⟩

/-- Whether it succeeds or fails, a request keeps the registry lawful and every type in it. -/
theorem Lawful.after_request (h : registry.Lawful) (request : Request) :
    (request.after registry).Lawful ∧ registry.Extends (request.after registry) := by
  have hspec := h.request_spec request
  unfold Request.after Action.after
  cases hrun : request.action.run registry with
  | error error left =>
      rw [hrun] at hspec
      rw [hspec.2]
      exact ⟨h, .refl registry⟩
  | ok type larger =>
      rw [hrun] at hspec
      exact ⟨hspec.1.lawful, hspec.1.keeps⟩

/-- A request that fails does so for a reason and leaves the registry as it was. -/
theorem Lawful.request_refused (h : registry.Lawful) {request : Request} {error : ModelError}
    (hanswer : request.action.answer registry = .error error) :
    registry.RefusesRequest request error ∧ request.after registry = registry := by
  have hspec := h.request_spec request
  unfold Action.answer at hanswer
  unfold Request.after Action.after
  cases hrun : request.action.run registry with
  | error error' left =>
      rw [hrun] at hspec hanswer
      obtain rfl := Except.error.inj hanswer
      exact hspec
  | ok type larger =>
      rw [hrun] at hanswer
      cases hanswer

/-! ### Any number of requests -/

theorem Lawful.afterAll (h : registry.Lawful) (requests : List Request) :
    (registry.afterAll requests).Lawful ∧ registry.Extends (registry.afterAll requests) := by
  induction requests generalizing registry with
  | nil => exact ⟨h, .refl registry⟩
  | cons request requests ih =>
      obtain ⟨hlawful, hextends⟩ := h.after_request request
      obtain ⟨hlawful', hextends'⟩ := ih hlawful
      exact ⟨hlawful', hextends.trans hextends'⟩

/-- The type that a lawful registry assigns to a variable is the answer to a request. -/
theorem Lawful.exists_request (h : registry.Lawful) {var : Variable} {type : VariableType}
    (hassign : registry.assign var = .ok (type, larger)) :
    ∃ request : Request, request.action.run registry = .ok type larger := by
  cases hdeclared : var.declaredType with
  | none =>
      rw [h.assign_undeclared hdeclared] at hassign
      obtain ⟨rfl, rfl⟩ := Prod.mk.inj (Except.ok.inj hassign)
      exact ⟨.builtin var.domain, rfl⟩
  | some declared =>
      rw [h.named.assign_declared hdeclared] at hassign
      split at hassign
      · exact ⟨.intern declared, by rw [Request.run_intern, hassign]⟩
      · cases hassign

end TypeRegistry

/-! ### Requests of a model -/

open Model TypeRegistry in
/-- An operation makes at most one request of the registry. -/
theorem Operation.exists_requests {m : Model} (h : m.types.Lawful) (op : Operation) :
    ∃ requests, (op.run m).types = m.types.afterAll requests := by
  have heffect := op.effect m
  generalize op.run m = m' at heffect ⊢
  have of_run {request : Request} {type : VariableType} {types : TypeRegistry}
      (hrun : request.action.run m.types = .ok type types) : types = m.types.afterAll [request] := by
    rw [afterAll, List.foldl_cons, List.foldl_nil, Request.after, Action.after, hrun]
  cases heffect with
  | register v classification type types hfree hclassify hassign =>
      obtain ⟨request, hrun⟩ := h.exists_request hassign
      exact ⟨[request], (linkPrepared_types m v classification type types).trans (of_run hrun)⟩
  | addType type types hadd =>
      have hrun : (Request.add type).action.run m.types = .ok type types := by
        rw [Request.run_add, hadd]
      exact ⟨[.add type], of_run hrun⟩
  | addInitialEquation eq => exact ⟨[], (KeepsGiven.learnRelation m eq).types⟩
  | addDaeEquation eq => exact ⟨[], (KeepsGiven.learnRelation m eq).types⟩
  | resolveLinks => exact ⟨[], (KeepsGiven.of_updates (.resolveLinks m)).types⟩
  | calculate op => exact ⟨[], (KeepsGiven.calculate m).types⟩
  | _ => exact ⟨[], rfl⟩

namespace Model

variable {m : Model} {v : VarId}

/-- The types of a reachable model are what requests have made of none. -/
theorem Reachable.types_requested {allowed : Model → Operation → Prop} (h : m.Reachable allowed) :
    ∃ requests, m.types = TypeRegistry.afterAll {} requests := by
  induction h with
  | start => exact ⟨[], rfl⟩
  | step op hreached _ _ ih =>
      obtain ⟨requests, htypes⟩ := ih
      obtain ⟨further, hfurther⟩ := op.exists_requests (Reachable.types_lawful hreached)
      refine ⟨requests ++ further, ?_⟩
      rw [hfurther, htypes, TypeRegistry.afterAll, TypeRegistry.afterAll, TypeRegistry.afterAll,
        List.foldl_append]

/-- A variable without a declared type is refused because of its name or its class only. -/
theorem addVariable_undeclared (hlawful : m.types.Lawful)
    (hdeclared : (m.store.get v).declaredType = none) {error : ModelError}
    (hanswer : (addVariable v).answer m = .error error) :
    error = .duplicateVariable (m.store.get v).name ∨
      error = .invalidVariability (m.store.get v).name (m.store.get v).domain .continuous := by
  rcases (addVariable_checks m v).reason error hanswer with ⟨-, rfl⟩ | hclassify | hassign
  · exact Or.inl rfl
  · exact Or.inr (classify_eq_error_iff.1 hclassify).2.2
  · rw [hlawful.assign_undeclared hdeclared] at hassign
    cases hassign

end Model

namespace TypeRegistry

/-- Whatever an empty registry is asked, in any order, it is lawful then and loses no type when it is asked
    more; the type for a domain has the domain; a request that fails leaves the registry as it was. A model
    with such a registry refuses a variable without a declared type because of its name or its class only,
    and what it refuses leaves no trace. Every reachable model has such a registry. -/
theorem afterAll_keeps :
    (∀ requests : List Request,
      ((afterAll {} requests).Lawful ∧
        ∀ further, (afterAll {} requests).Extends ((afterAll {} requests).afterAll further)) ∧
      (∀ domain, ((afterAll {} requests).builtin domain).1.domain = domain) ∧
      (∀ request error, request.action.answer (afterAll {} requests) = .error error →
        (afterAll {} requests).RefusesRequest request error ∧
          request.after (afterAll {} requests) = afterAll {} requests) ∧
      ∀ m : Model, m.types = afterAll {} requests →
        (∀ v error, (m.store.get v).declaredType = none →
          (Model.addVariable v).answer m = .error error →
          error = .duplicateVariable (m.store.get v).name ∨
            error = .invalidVariability (m.store.get v).name (m.store.get v).domain .continuous) ∧
        (∀ v error, (Model.addVariable v).answer m = .error error →
          (Model.addVariable v).after m = m) ∧
        ∀ type error, (Model.addType type).answer m = .error error →
          (Model.addType type).after m = m) ∧
    ∀ (allowed : Model → Operation → Prop) (m : Model), m.Reachable allowed →
      ∃ requests, m.types = afterAll {} requests := by
  refine ⟨fun requests => ?_, fun allowed m hreachable => hreachable.types_requested⟩
  have hlawful : (afterAll {} requests).Lawful := (lawful_empty.afterAll requests).1
  refine ⟨⟨hlawful, fun further => (hlawful.afterAll further).2⟩, hlawful.builtin_domain, ?_, ?_⟩
  · intro request error hanswer
    exact hlawful.request_refused hanswer
  · intro m htypes
    rw [← htypes] at hlawful
    exact ⟨fun v error hdeclared hanswer => Model.addVariable_undeclared hlawful hdeclared hanswer,
      fun v => (Model.addVariable_checks m v).unchanged,
      fun type => (m.types.add_failsCleanly type).onTypes.unchanged⟩

/-- A type called `Real` that is real. -/
def ownReal : VariableType := { id := 4, name := "Real", domain := .real }

/-- A type called `Real` that is not. -/
def integerReal : VariableType := { id := 5, name := "Real", domain := .integer }

/-- A continuous integer variable without a declared type. -/
def undeclaredInteger : Variable :=
  { symbol := .symbol 1 "n"
    name := "n"
    name_eq := (Expr.print_symbol 1 "n").symm
    domain := .integer
    causality := .internal
    variability := .continuous }

/-- A model with that variable and a type called `Real`. -/
def withOwnReal : Model := [.addType ownReal, .create undeclaredInteger].foldl Operation.run {}

/-- The first type called `Real` stays, the second one is refused, and so is the integer variable, because
    of its class. -/
theorem afterAll_keeps_ownReal :
    (∀ further, ((afterAll {} [.add ownReal]).afterAll further).get? "Real" = some ownReal) ∧
      (Request.add integerReal).after (afterAll {} [.add ownReal]) = afterAll {} [.add ownReal] ∧
      (∃ requests, withOwnReal.types = afterAll {} requests) ∧
      (Model.addVariable ⟨0⟩).answer withOwnReal =
        .error (.invalidVariability "n" .integer .continuous) ∧
      (Model.addVariable ⟨0⟩).after withOwnReal = withOwnReal := by
  obtain ⟨⟨-, hextends⟩, -, hfails, hmodels⟩ := afterAll_keeps.1 [.add ownReal]
  have hreachable : withOwnReal.Reachable fun _ _ => True :=
    .step (.create undeclaredInteger) (.step (.addType ownReal) .start trivial trivial) rfl trivial
  have hrefused : (Request.add integerReal).action.answer (afterAll {} [.add ownReal]) =
      .error (.builtinTypeName "Real" .integer) := by rfl
  have hanswer : (Model.addVariable ⟨0⟩).answer withOwnReal =
      .error (.invalidVariability "n" .integer .continuous) := by rfl
  have htypes : withOwnReal.types = afterAll {} [.add ownReal] := by rfl
  exact ⟨fun further => hextends further "Real" ownReal (by rfl), (hfails _ _ hrefused).2,
    afterAll_keeps.2 _ _ hreachable, hanswer, (hmodels withOwnReal htypes).2.1 ⟨0⟩ _ hanswer⟩

end TypeRegistry

end FlatDae
