/-
Module: FlatDae.Proofs.ComponentElaboration
Purpose: What is checked while variables and aliases are built. A component is built if its head, its
  attributes and its binding are well formed, and what is built is always registered: its name is new,
  it is real if it is continuous, and its type is in the registry.
Main exports: TypesKnown, Populated, Populated.register, variabilityOf_spec, causalityOf_spec,
  buildVariables_checks, buildAlias_checks
-/
import FlatDae.Proofs.DeclarationElaboration
import FlatDae.Proofs.RegistrationOrder
import Mathlib.Data.List.Nodup

namespace FlatDae

namespace Elaboration

open Source (Component Qualifier)

/-! ### The types of variables -/

/-- The registry has the declared types and perhaps built-in ones. -/
structure TypesKnown (isType : String → Prop) (types : TypeRegistry) : Prop where
  named : types.Named
  found : ∀ name, Domain.ofName? name = none → ((types.get? name).isSome = true ↔ isType name)
  builtin : ∀ (domain : Domain) (type : VariableType), types.get? domain.name = some type →
    type.domain = domain

theorem OnlyTypes.known {names : List String} {types : TypeRegistry} (h : OnlyTypes names types) :
    TypesKnown (· ∈ names) types :=
  ⟨h.named, fun name _ => h.found name, h.builtin⟩

/-- More built-in types make no difference. -/
theorem TypesKnown.withBuiltins {isType : String → Prop} {types larger : TypeRegistry}
    (h : TypesKnown isType types) (hlarger : types.WithBuiltins larger) (hnamed : larger.Named) :
    TypesKnown isType larger where
  named := hnamed
  found := by
    intro name hname
    rw [hlarger.get?_eq hname]
    exact h.found name hname
  builtin := by
    intro domain type hfound
    rcases hlarger domain.name with hsame | ⟨-, domain', hname, hnew⟩
    · exact h.builtin domain type (hsame.symm.trans hfound)
    · rw [← Option.some.inj (hnew.symm.trans hfound)]
      exact (Domain.name_injective hname).symm

/-- The variable is what a component of the name is built to, and nothing but its name can speak against
    its registration. -/
structure Fits (types : TypeRegistry) (name : String) (var : Variable) : Prop where
  name : var.name = name
  continuous : var.variability = .continuous → var.domain = .real
  declaredType : ∀ declared, var.declaredType = some declared →
    types.get? declared.name = some declared ∧ declared.domain = var.domain

theorem Fits.foldl_withAttribute {types : TypeRegistry} {name : String} {var : Variable}
    (h : Fits types name var) (settings : List (String × Attribute)) :
    Fits types name (settings.foldl (fun var (name, value) => var.withAttribute name value) var) := by
  induction settings generalizing var with
  | nil => exact h
  | cons setting settings ih => exact ih ⟨h.name, h.continuous, h.declaredType⟩

/-- Every variable that fits is assigned a type. -/
theorem TypesKnown.assign {isType : String → Prop} {types : TypeRegistry} (h : TypesKnown isType types)
    {name : String} {var : Variable} (hfits : Fits types name var) :
    ∃ type larger, types.assign var = .ok (type, larger) ∧ TypesKnown isType larger := by
  unfold TypeRegistry.assign
  cases hdeclared : var.declaredType with
  | some declared =>
      obtain ⟨hfound, hdomain⟩ := hfits.declaredType declared hdeclared
      have hintern : types.intern declared = .ok (declared, types) := by
        rw [TypeRegistry.intern_eq, hfound]
      refine ⟨declared, types, ?_, h⟩
      simp only [hfound, Option.getD_some, hdomain, if_true, hintern]
  | none =>
      rw [TypeRegistry.builtin_eq]
      cases hfound : types.get? var.domain.name with
      | some type =>
          refine ⟨type, types, ?_, h⟩
          simp only [h.builtin _ _ hfound, if_true]
      | none =>
          refine ⟨.builtin var.domain, types.store (.builtin var.domain), ?_, ?_⟩
          · exact if_pos rfl
          · exact h.withBuiltins ((TypeRegistry.WithBuiltins.refl types).store_builtin hfound)
              (h.named.store _)

/-- Every variable that fits is classified. -/
theorem Fits.classify {types : TypeRegistry} {name : String} {var : Variable}
    (h : Fits types name var) (store : Variables) (relations : Array DerivativeRelation) :
    ∃ classification, classify store var relations = .ok classification := by
  unfold FlatDae.classify
  cases hvariability : var.variability with
  | constant => exact ⟨_, rfl⟩
  | parameter => exact ⟨_, rfl⟩
  | discrete => cases var.causality <;> exact ⟨_, rfl⟩
  | continuous =>
      rw [h.continuous hvariability]
      cases var.causality <;> exact ⟨_, rfl⟩

/-! ### Registered components -/

/-- The registered variables are those of the components, in order, and are found under their names. -/
structure Populated (isType : String → Prop) (done : List (Component × VarId)) (m : Model) : Prop where
  types : TypesKnown isType m.types
  apart : m.RegisteredApart
  registered : m.registered.toList = done.map Prod.snd
  names : ∀ p ∈ done, (m.store.get p.2).name = p.1.name

namespace Populated

variable {isType : String → Prop} {done : List (Component × VarId)} {m : Model}
  (h : Populated isType done m)
include h

theorem mem_registered_iff {v : VarId} : v ∈ m.registered ↔ ∃ p ∈ done, p.2 = v := by
  rw [← Array.mem_toList_iff, h.registered, List.mem_map]

theorem exist (p : Component × VarId) (hp : p ∈ done) : p.2.index < m.store.cells.size :=
  h.apart.exist p.2 (h.mem_registered_iff.2 ⟨p, hp, rfl⟩)

/-- All components have different names, since their variables do. -/
theorem distinct : (done.map (·.1.name)).Nodup := by
  have hnames := h.apart.names
  rw [h.registered, List.map_map] at hnames
  rwa [List.map_congr_left fun p hp => (h.names p hp).symm]

/-- A name is found if it is that of a component. -/
theorem findVariable? (name : String) :
    match m.findVariable? name with
    | some v => ∃ p ∈ done, p.2 = v ∧ p.1.name = name
    | none => ∀ p ∈ done, p.1.name ≠ name := by
  cases hfind : m.findVariable? name with
  | some v =>
      obtain ⟨hv, hname⟩ := h.apart.findVariable?_eq_some_iff.1 hfind
      obtain ⟨p, hp, rfl⟩ := h.mem_registered_iff.1 hv
      exact ⟨p, hp, rfl, (h.names p hp).symm.trans hname⟩
  | none =>
      intro p hp hname
      exact h.apart.name_ne hfind (h.mem_registered_iff.2 ⟨p, hp, rfl⟩) ((h.names p hp).trans hname)

theorem isSome_findVariable?_iff (name : String) :
    (m.findVariable? name).isSome = true ↔ name ∈ done.map (·.1.name) := by
  rw [h.apart.isSome_findVariable?_iff, List.mem_map]
  constructor
  · rintro ⟨v, hv, hname⟩
    obtain ⟨p, hp, rfl⟩ := h.mem_registered_iff.1 hv
    exact ⟨p, hp, (h.names p hp).symm.trans hname⟩
  · rintro ⟨p, hp, hname⟩
    exact ⟨p.2, h.mem_registered_iff.2 ⟨p, hp, rfl⟩, (h.names p hp).trans hname⟩

/-- What is found under a name is a component's variable if the name is that of the component. -/
theorem findVariable?_eq_iff {c : Component} {v w : VarId} (hmem : (c, v) ∈ done) {name : String}
    (hfind : m.findVariable? name = some w) : w = v ↔ name = c.name := by
  have hfound := h.findVariable? name
  rw [hfind] at hfound
  obtain ⟨p, hp, rfl, rfl⟩ := hfound
  constructor
  · intro hplace
    rw [← h.names p hp, hplace]
    exact h.names (c, v) hmem
  · intro hname
    have hsame : p = (c, v) := List.inj_on_of_nodup_map h.distinct hp hmem hname
    rw [hsame]

/-- A variable is made beside those that there are. -/
theorem create (var : Variable) :
    Populated isType done (m.createVariable var).2 ∧
      (m.createVariable var).1.index < (m.createVariable var).2.store.cells.size ∧
      (m.createVariable var).2.store.get (m.createVariable var).1 = var := by
  have hsize : (m.createVariable var).2.store.cells.size = m.store.cells.size + 1 :=
    Array.size_push _
  refine ⟨⟨h.types, h.apart.of_keeps (.create m var), h.registered, ?_⟩, ?_, ?_⟩
  · intro p hp
    change ((m.store.create var).2.get p.2).name = p.1.name
    rw [Variables.get_create _ _ (h.exist p hp)]
    exact h.names p hp
  · rw [hsize]
    exact Nat.lt_succ_self _
  · change (m.store.create var).2.get ⟨m.store.cells.size⟩ = var
    rw [Variables.get_create_eq, if_pos rfl]

/-- A variable that fits is registered, if its name is new. -/
theorem register {c : Component} {v : VarId} (hfits : Fits m.types c.name (m.store.get v))
    (hexist : v.index < m.store.cells.size) (hnew : c.name ∉ done.map (·.1.name)) :
    ∃ m', (Model.addVariable v).run m = .ok () m' ∧ Populated isType (done ++ [(c, v)]) m' := by
  have hfree : m.findVariable? (m.store.get v).name = none := by
    rw [hfits.name, ← Option.not_isSome_iff_eq_none, h.isSome_findVariable?_iff]
    exact hnew
  obtain ⟨classification, hclassify⟩ := hfits.classify m.store m.relations
  obtain ⟨type, types, hassign, htypes⟩ := h.types.assign hfits
  refine ⟨m.register v classification type types, ?_, ?_⟩
  · rw [Model.addVariable_run, h.apart.contains_eq, hfree, hclassify, hassign]
    rfl
  · have hkeeps := Model.Keeps.linkPrepared m v classification type types
    constructor
    · change TypesKnown isType
        ((m.prepare v classification type types).linkPartner v classification).types
      rw [Model.linkPrepared_types]
      exact htypes
    · exact h.apart.register hexist hfree classification type types
    · change (((m.prepare v classification type types).linkPartner v
        classification).registered.push v).toList = _
      rw [hkeeps.registered, Array.toList_push, h.registered, List.map_append, List.map_singleton]
    · intro p hp
      rcases List.mem_append.1 hp with hold | hself
      · exact (hkeeps.made p.2 (h.exist p hold)).name.trans (h.names p hold)
      · rw [List.mem_singleton.1 hself]
        exact (hkeeps.made v hexist).name.trans hfits.name

/-- Setting an alias changes nothing that is registered. -/
theorem setAlias (v : VarId) (link : Option Alias) :
    Populated isType done (m.modifyVariable v fun var => { var with aliasOf := link }) where
  types := h.types
  apart := h.apart.of_keeps (.modify m v fun _ => ⟨rfl, rfl, rfl, rfl⟩)
  registered := h.registered
  names := by
    intro p hp
    rw [Model.modifyVariable, Variables.get_modify]
    split
    · exact h.names p hp
    · exact h.names p hp

end Populated

/-! ### Variables of components -/

/-- A component has a domain if its type is known. -/
theorem typeOf_spec {isType : String → Prop} {m : Model} (h : TypesKnown isType m.types)
    (c : Component) :
    match typeOf m c with
    | .ok (domain, declaredType) =>
      ((Domain.ofName? c.typeName).isSome = true ∨ isType c.typeName) ∧
        ∀ declared, declaredType = some declared →
          m.types.get? declared.name = some declared ∧ declared.domain = domain
    | .error _ => ¬ ((Domain.ofName? c.typeName).isSome = true ∨ isType c.typeName) := by
  unfold typeOf
  cases hbuiltin : Domain.ofName? c.typeName with
  | some domain => exact ⟨Or.inl rfl, fun declared hnone => by cases hnone⟩
  | none =>
      have hfound := h.found c.typeName hbuiltin
      cases htype : m.types.get? c.typeName with
      | some type =>
          rw [htype] at hfound
          refine ⟨Or.inr (hfound.1 rfl), ?_⟩
          intro declared hdeclared
          rw [← Option.some.inj hdeclared, h.named _ _ htype]
          exact ⟨htype, rfl⟩
      | none =>
          rw [htype] at hfound
          simp [← hfound]

/-- The words for a variability are those that give one. -/
theorem length_filterMap_variability? (qualifiers : List Qualifier) :
    (qualifiers.filterMap variability?).length = qualifiers.countP (·.IsVariability) := by
  have hsame : (fun q => (variability? q).isSome) = fun q : Qualifier => decide q.IsVariability := by
    funext q
    cases q <;> rfl
  rw [List.length_filterMap_eq_countP, hsame]

/-- No two words give the same variability. -/
theorem mem_filterMap_variability?_iff {q : Qualifier} {variability : Variability}
    (hq : variability? q = some variability) (qualifiers : List Qualifier) :
    variability ∈ qualifiers.filterMap variability? ↔ q ∈ qualifiers := by
  rw [List.mem_filterMap]
  constructor
  · rintro ⟨q', hmem, hq'⟩
    have hsame : q' = q := by
      cases q <;> cases hq <;> cases q' <;> first | rfl | cases hq'
    exact hsame ▸ hmem
  · exact fun hmem => ⟨q, hmem, hq⟩

/-- A component has the variability that its words declare, if there is at most one for it. -/
theorem variabilityOf_spec (c : Component) (domain : Domain) :
    match variabilityOf c domain with
    | .ok variability => c.qualifiers.countP (·.IsVariability) ≤ 1 ∧
        c.DeclaresVariability domain variability
    | .error _ => ¬ c.qualifiers.countP (·.IsVariability) ≤ 1 := by
  have hconstant := mem_filterMap_variability?_iff (q := .constant) rfl c.qualifiers
  have hparameter := mem_filterMap_variability?_iff (q := .parameter) rfl c.qualifiers
  have hdiscrete := mem_filterMap_variability?_iff (q := .discrete) rfl c.qualifiers
  rw [← length_filterMap_variability?]
  unfold variabilityOf
  cases hfound : c.qualifiers.filterMap variability? with
  | nil =>
      simp only [hfound, List.not_mem_nil, false_iff] at hconstant hparameter hdiscrete
      refine ⟨Nat.zero_le _, ?_⟩
      cases domain <;> simp [Component.DeclaresVariability, hconstant, hparameter, hdiscrete]
  | cons variability rest =>
      cases rest with
      | nil =>
          have hmem : variability ∈ c.qualifiers.filterMap variability? := by simp [hfound]
          simp only [hfound, List.mem_singleton] at hconstant hparameter hdiscrete
          refine ⟨Nat.le_refl _, ?_⟩
          cases variability with
          | continuous =>
              -- no word makes anything continuous
              obtain ⟨q, -, hq⟩ := List.mem_filterMap.1 hmem
              cases q <;> cases hq
          | _ => simp [Component.DeclaresVariability, ← hconstant, ← hparameter, ← hdiscrete]
      | cons other rest => simp

/-- A component has the causality that its words declare, if it is not both input and output. -/
theorem causalityOf_spec (c : Component) :
    match causalityOf c with
    | .ok causality => ¬ (.input ∈ c.qualifiers ∧ .output ∈ c.qualifiers) ∧ c.DeclaresCausality causality
    | .error _ => .input ∈ c.qualifiers ∧ .output ∈ c.qualifiers := by
  unfold causalityOf
  by_cases hinput : .input ∈ c.qualifiers <;> by_cases houtput : .output ∈ c.qualifiers <;>
    simp [hinput, houtput, Component.DeclaresCausality]

/-- The head of a component gives a variable that fits, if it is well formed. -/
theorem declaredVariable_spec {isType : String → Prop} {m : Model} (h : TypesKnown isType m.types)
    (c : Component) (symbol : Expr) :
    match declaredVariable m c symbol with
    | .ok declared => c.HeadWellFormed isType ∧ Fits m.types symbol.print declared
    | .error _ => ¬ c.HeadWellFormed isType := by
  have htype := typeOf_spec h c
  have hcausality := causalityOf_spec c
  unfold declaredVariable
  cases htypeOf : typeOf m c with
  | error problem =>
      rw [htypeOf] at htype
      exact fun hc => htype hc.type
  | ok found =>
      rw [htypeOf] at htype
      have hvariability := variabilityOf_spec c found.1
      simp only [bind, Except.bind]
      cases hvariabilityOf : variabilityOf c found.1 with
      | error problem =>
          rw [hvariabilityOf] at hvariability
          exact fun hc => hvariability hc.variability
      | ok variability =>
          rw [hvariabilityOf] at hvariability
          cases hcausalityOf : causalityOf c with
          | error problem =>
              rw [hcausalityOf] at hcausality
              exact fun hc => hc.causality hcausality
          | ok causality =>
              rw [hcausalityOf] at hcausality
              refine ⟨⟨htype.1, hvariability.1, hcausality.1⟩, rfl, ?_, htype.2⟩
              rintro rfl
              exact hvariability.2.2.2.2

/-- The component can be built: it is not called like the time variable and has its symbol. -/
structure HasSymbol (symbols : Symbols) (c : Component) : Prop where
  notTime : c.name ≠ timeName
  symbol : ∃ symbol, symbols[c.name]? = some symbol ∧ symbol.print = c.name

/-- The `done` components are registered, and the others come next under new names. -/
structure Underway (isType : String → Prop) (symbols : Symbols) (done : List (Component × VarId))
    (next : List Component) (m : Model) : Prop extends Populated isType done m where
  symbols : ∀ c ∈ next, HasSymbol symbols c
  newNames : NewNames (done.map (·.1.name)) (next.map (·.name))

section Components

variable {isType : String → Prop} {signatures : Signatures} {symbols : Symbols}

theorem Underway.supply {done : List (Component × VarId)} {next : List Component} {m : Model}
    (h : Underway isType symbols done next m) (supply : Supply) :
    Underway isType symbols done next { m with supply } :=
  ⟨⟨h.types, h.apart.of_keeps (.of_eq rfl rfl rfl), h.registered, h.names⟩, h.symbols, h.newNames⟩

/-- What comes after the head of a component. -/
theorem completeVariable_checks (c : Component) (declared : Variable)
    (done : List (Component × VarId)) (next : List Component) :
    Builds (fun m => Fits m.types c.name declared ∧ Underway isType symbols done next m)
      (completeVariable signatures symbols c declared)
      ((∀ e ∈ Source.settingExpressions c.attributes,
          e.WellFormed signatures.Declares (Scope.model symbols).Known) ∧
        ∀ e, c.binding = some e → e.WellFormed signatures.Declares (Scope.model symbols).Known)
      fun built m => (∃ var, built = some var ∧ Fits m.types c.name var) ∧
        Underway isType symbols done next m := by
  have hsupply (var : Variable) (m : Model) (supply : Supply)
      (hm : Fits m.types c.name var ∧ Underway isType symbols done next m) :
      Fits m.types c.name var ∧ Underway isType symbols done next { m with supply } :=
    ⟨hm.1, hm.2.supply supply⟩
  unfold completeVariable
  apply Checks.bind (Builds.elaborating_keeps (hsupply declared)
    (elaborateAttributes_checks signatures (.model symbols) c.attributes))
  intro settings
  have hset (m : Model) (hm : Fits m.types c.name declared) :
      Fits m.types c.name
        (settings.foldl (fun var (name, value) => var.withAttribute name value) declared) :=
    hm.foldl_withAttribute settings
  generalize settings.foldl (fun var (name, value) => var.withAttribute name value) declared = var
    at hset
  cases hbinding : c.binding with
  | none =>
      apply Checks.congr (.pure fun draft hs => ?_)
      · exact iff_of_true trivial fun e he => nomatch he
      · exact ⟨⟨var, rfl, hset _ hs.1⟩, hs.2⟩
  | some binding =>
      have hbuilt := Builds.elaborating (hsupply var)
        (elaborateExpression_checks signatures (.model symbols) binding)
      apply Checks.adapt (hbuilt.before fun built => ?_)
      · intro draft hs
        exact ⟨⟨hset _ hs.1, hs.2⟩, by simp, fun _ _ h => h⟩
      · cases built with
        | none => exact .pure_of_not fun _ hs => by cases hs.1
        | some value =>
            apply Checks.pure
            intro draft hs
            refine ⟨⟨_, rfl, ?_⟩, hs.2.2⟩
            exact hs.2.1.foldl_withAttribute [(Variable.bindingAttribute, .expr value)]

/-- The variable of a component is built if the component is well formed. -/
theorem buildVariable_checks (c : Component) (done : List (Component × VarId))
    (next : List Component) :
    Builds (Underway isType symbols done (c :: next)) (buildVariable signatures symbols c)
      (c.WellFormed isType signatures.Declares (Scope.model symbols).Known)
      fun built m => (∃ var, built = some var ∧ Fits m.types c.name var) ∧
        Underway isType symbols done (c :: next) m := by
  unfold buildVariable
  by_cases htime : c.name = timeName
  · rw [if_pos (by simpa using htime)]
    exact .pure_of_not fun draft hs => (hs.symbols c List.mem_cons_self).notTime htime
  · rw [if_neg (by simpa using htime)]
    cases hsymbol : symbols[c.name]? with
    | none =>
        apply Checks.pure_of_not
        intro draft hs
        obtain ⟨symbol, hfound, -⟩ := (hs.symbols c List.mem_cons_self).symbol
        rw [hsymbol] at hfound
        cases hfound
    | some symbol =>
        apply Builds.get
        intro start
        cases hdeclared : declaredVariable start.model c symbol with
        | error problem =>
            apply Builds.fault_of_model (Checks.refuse _ _)
            rintro m ⟨rfl, hm⟩ hc
            have hspec := declaredVariable_spec hm.types c symbol
            rw [hdeclared] at hspec
            exact hspec hc.head
        | ok declared =>
            apply Checks.adapt (completeVariable_checks c declared done (c :: next))
            rintro draft ⟨hstart, hm⟩
            have hspec := declaredVariable_spec hm.types c symbol
            rw [← hstart, hdeclared] at hspec
            obtain ⟨symbol', hfound, hprint⟩ := (hm.symbols c List.mem_cons_self).symbol
            rw [Option.some.inj (hsymbol.symm.trans hfound), hprint, hstart] at hspec
            refine ⟨⟨hspec.2, hm⟩, ?_, fun _ _ h => h⟩
            exact ⟨fun h => ⟨hspec.1, h.1, h.2⟩, fun hc => ⟨hc.attributes, hc.binding⟩⟩

/-- The variable that is built is given its place. -/
theorem createVariable_checks (c : Component) (var : Variable) (done : List (Component × VarId))
    (next : List Component) :
    Builds
      (fun m => (∃ var', some var = some var' ∧ Fits m.types c.name var') ∧
        Underway isType symbols done next m)
      (modifyModel (·.createVariable var)) True
      fun v m => (Fits m.types c.name (m.store.get v) ∧ v.index < m.store.cells.size) ∧
        Underway isType symbols done next m := by
  apply Builds.modifyModel
  rintro m ⟨⟨var', hvar, hfits⟩, hm⟩
  obtain ⟨hm', hexist, hget⟩ := hm.create var
  refine ⟨⟨?_, hexist⟩, hm', hm.symbols, hm.newNames⟩
  rw [hget, Option.some.inj hvar]
  exact hfits

/-- It is registered without a fault. -/
theorem addVariable_checks (c : Component) (v : VarId) (done : List (Component × VarId))
    (next : List Component) :
    Builds
      (fun m => (Fits m.types c.name (m.store.get v) ∧ v.index < m.store.cells.size) ∧
        Underway isType symbols done (c :: next) m)
      (attempt c.start (Model.addVariable v)) True
      fun registered m => registered = true ∧ Underway isType symbols (done ++ [(c, v)]) next m := by
  apply Builds.attempt
  rintro m ⟨⟨hfits, hexist⟩, hm⟩
  obtain ⟨hnew, hnewNames⟩ := newNames_cons_iff.1 hm.newNames
  obtain ⟨m', hrun, hm'⟩ := hm.register hfits hexist hnew
  rw [hrun]
  refine ⟨trivial, hm', fun c' hc' => hm.symbols c' (List.mem_cons_of_mem c hc'), ?_⟩
  rw [List.map_append]
  exact hnewNames

/-- The components are registered in order if they are well formed. -/
theorem buildVariables_checks (cs : List Component) (done : List (Component × VarId)) :
    Builds (Underway isType symbols done cs) (buildVariables signatures symbols cs)
      (∀ c ∈ cs, c.WellFormed isType signatures.Declares (Scope.model symbols).Known)
      fun more m => more.map Prod.fst = cs ∧ Populated isType (done ++ more) m := by
  induction cs generalizing done with
  | nil =>
      rw [buildVariables]
      apply Checks.congr (.pure fun draft hs => ?_)
      · exact iff_of_true trivial fun c hc => absurd hc List.not_mem_nil
      · refine ⟨rfl, ?_⟩
        rw [List.append_nil]
        exact hs.toPopulated
  | cons c cs ih =>
      rw [buildVariables, List.forall_mem_cons]
      apply Checks.bind (buildVariable_checks c done cs)
      intro built
      cases built with
      | none => exact Checks.vacuous (ih done) fun draft ⟨⟨_, hnone, _⟩, _⟩ => nomatch hnone
      | some var =>
          apply Checks.after (createVariable_checks c var done (c :: cs))
          intro v
          apply Checks.after (addVariable_checks c v done cs)
          intro registered
          apply Checks.before ((ih (done ++ [(c, v)])).framed (registered = true))
          intro more
          apply Checks.pure
          rintro draft ⟨hregistered, hmore, hm⟩
          rw [if_pos hregistered, List.map_cons, hmore, List.append_cons]
          exact ⟨rfl, hm⟩

/-! ### Aliases -/

/-- An alias is set if it is one of another component. -/
theorem buildAlias_checks {all : List (Component × VarId)} {c : Component} {v : VarId}
    (hmem : (c, v) ∈ all) :
    Builds (Populated isType all) (buildAlias c v) (c.AliasWellFormed (· ∈ all.map (·.1.name)))
      fun _ => Populated isType all := by
  unfold buildAlias
  cases halias : c.aliasOf with
  | none =>
      apply Checks.congr Checks.done
      exact iff_of_true trivial fun clause hclause => nomatch halias.symm.trans hclause
  | some clause =>
      have hfits : c.AliasWellFormed (· ∈ all.map (·.1.name)) ↔
          clause.target ∈ all.map (·.1.name) ∧ clause.target ≠ c.name := by
        simp [Component.AliasWellFormed, halias]
      rw [hfits]
      apply Builds.get
      intro start
      cases hfind : start.model.findVariable? clause.target with
      | none =>
          apply Builds.fault_of_model (Checks.report _ _)
          rintro m ⟨rfl, hm⟩ ⟨htarget, -⟩
          have hsome := (hm.isSome_findVariable?_iff clause.target).2 htarget
          rw [hfind] at hsome
          cases hsome
      | some target =>
          by_cases hself : target = v
          · simp only [hself, beq_self_eq_true, if_true]
            apply Builds.fault_of_model (Checks.report _ _)
            rintro m ⟨rfl, hm⟩ ⟨-, hother⟩
            exact hother ((hm.findVariable?_eq_iff hmem hfind).1 hself)
          · simp only [beq_eq_false_iff_ne.2 hself, Bool.false_eq_true, if_false]
            have hset := Builds.modifyModel (I := Populated isType all)
              (J := fun _ => Populated isType all)
              (f := fun m => ((), m.modifyVariable v fun var =>
                { var with aliasOf := some { target, negated := clause.negated } }))
              fun m hm => hm.setAlias v _
            apply Checks.adapt hset
            rintro draft ⟨hstart, hm⟩
            rw [hstart] at hfind
            refine ⟨hm, iff_of_true trivial ⟨?_, ?_⟩, fun _ _ h => h⟩
            · rw [← hm.isSome_findVariable?_iff, hfind]
              rfl
            · exact mt (hm.findVariable?_eq_iff hmem hfind).2 hself

end Components

end Elaboration

end FlatDae
