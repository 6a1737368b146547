/-
Module: FlatDae.Proofs.ComponentTranslation
Purpose: What becomes of the components of a text. Each is registered as one variable, in the order of
  the text, with the symbol, the type, the causality and the variability that its words declare, and the
  attributes; later registrations and links change nothing of these. An alias is the variable of the
  component that it names.
Main exports: Source.Component.allSettings, Source.Component.TranslatesTo, Peopled, Peopled.register,
  buildVariables_translates, aliasIn, buildAliases_translates, Peopled.resolveLinks
-/
import FlatDae.Proofs.ComponentElaboration
import FlatDae.Proofs.DeclarationTranslation

namespace FlatDae

open FlatDae.Expr (Graph)

namespace Source

/-- The settings of a component; the binding is the last of them. -/
def Component.allSettings (c : Component) : List AttributeSetting :=
  c.attributes ++ (c.binding.map fun e =>
    { start := e.start, name := Variable.bindingAttribute, value := .expression e }).toList

/-- The variable is what the component declares: it goes by a symbol of the component's name, which is
    what the name means, has the type called like the declared one, is what the words in front of the type
    say, and its attributes are those that the component sets. -/
structure Component.TranslatesTo (means : String → Expr → Prop) (types : TypeRegistry) (c : Component)
    (var : Variable) : Prop where
  symbol : ∃ id, var.symbol = .symbol id c.name
  meaning : means c.name var.symbol
  type : ∃ type, types.get? c.typeName = some type ∧ var.declaredType = some type ∧
    type.domain = var.domain
  variability : c.DeclaresVariability var.domain var.variability
  causality : c.DeclaresCausality var.causality
  attributes : SetFrom means (fun _ => none) c.allSettings var.attributes

namespace Component.TranslatesTo

variable {means : String → Expr → Prop} {types larger : TypeRegistry} {c : Component}
  {var var' : Variable} (h : c.TranslatesTo means types var)
include h

theorem name : var.name = c.name := by
  obtain ⟨id, hsymbol⟩ := h.symbol
  rw [var.name_eq, hsymbol, Expr.print_symbol]

/-- Links and aliases say nothing about a component. -/
theorem rewired (derivative differentiated : Option VarId) (aliasOf : Option Alias) :
    c.TranslatesTo means types { var with derivative, differentiated, aliasOf } :=
  ⟨h.symbol, h.meaning, h.type, h.variability, h.causality, h.attributes⟩

theorem relinked (hlinks : var.Relinked var') : c.TranslatesTo means types var' := by
  obtain ⟨derivative, differentiated, rfl⟩ := hlinks
  exact h.rewired derivative differentiated var.aliasOf

/-- A registry that is there stays the same for the component if only built-in types are added. -/
theorem withBuiltins (hlarger : types.WithBuiltins larger) : c.TranslatesTo means larger var := by
  obtain ⟨type, hfound, hdeclared, hdomain⟩ := h.type
  refine ⟨h.symbol, h.meaning, ⟨type, ?_, hdeclared, hdomain⟩, h.variability, h.causality, h.attributes⟩
  rcases hlarger c.typeName with hsame | ⟨hnone, -⟩
  · exact hsame.trans hfound
  · rw [hfound] at hnone
    cases hnone

end Component.TranslatesTo

end Source

/-! ### Types of variables -/

/-- Only the name of a domain is read as that domain. -/
theorem Domain.eq_name_of_ofName? {text : String} {domain : Domain}
    (h : Domain.ofName? text = some domain) : text = domain.name := by
  unfold Domain.ofName? at h
  split at h
  all_goals first | (rw [← Option.some.inj h]; rfl) | cases h

/-- The type that a variable is assigned is in the registry, under the name of the declared type or
    else of the domain. -/
theorem TypeRegistry.get?_of_assign {registry larger : TypeRegistry} {var : Variable}
    {type : VariableType} (h : registry.assign var = .ok (type, larger))
    (hdeclared : ∀ declared, var.declaredType = some declared →
      registry.get? declared.name = some declared) :
    match var.declaredType with
    | some declared => type = declared ∧ larger.get? declared.name = some type
    | none => larger.get? var.domain.name = some type := by
  unfold assign at h
  cases hvar : var.declaredType with
  | some declared =>
      have hfound := hdeclared declared hvar
      have hintern : registry.intern declared = .ok (declared, registry) := by
        rw [intern_eq, hfound]
      simp only [hvar, hfound, Option.getD_some, hintern] at h
      split at h
      · obtain ⟨rfl, rfl⟩ := Prod.mk.inj (Except.ok.inj h)
        exact ⟨rfl, hfound⟩
      · cases h
  | none =>
      simp only [hvar] at h
      split at h
      · obtain ⟨rfl, rfl⟩ := Prod.mk.inj (Except.ok.inj h)
        rw [builtin_eq]
        cases hfound : registry.get? var.domain.name with
        | some registered => exact hfound
        | none =>
            change (registry.store (.builtin var.domain)).get? var.domain.name = _
            rw [get?_store]
            exact if_pos rfl
      · cases h

namespace Elaboration

open Source (Component)

/-! ### Variables before registration -/

/-- What the head of a component gives. -/
theorem declaredVariable_eq_ok {m : Model} {c : Component} {symbol : Expr} {declared : Variable}
    (h : declaredVariable m c symbol = .ok declared) :
    ∃ domain declaredType causality variability,
      declared = { symbol, domain, causality, variability, declaredType } ∧
      typeOf m c = .ok (domain, declaredType) ∧ c.DeclaresVariability domain variability ∧
      c.DeclaresCausality causality := by
  unfold declaredVariable at h
  cases htype : typeOf m c with
  | error problem =>
      rw [htype] at h
      cases h
  | ok found =>
      cases hvariability : variabilityOf c found.1 with
      | error problem =>
          simp only [htype, hvariability, bind, Except.bind] at h
          cases h
      | ok variability =>
          cases hcausality : causalityOf c with
          | error problem =>
              simp only [htype, hvariability, hcausality, bind, Except.bind] at h
              cases h
          | ok causality =>
              have hdeclared := variabilityOf_spec c found.1
              have hdeclared' := causalityOf_spec c
              rw [hvariability] at hdeclared
              rw [hcausality] at hdeclared'
              simp only [htype, hvariability, hcausality, bind, Except.bind] at h
              exact ⟨_, _, _, _, (Except.ok.inj h).symm, rfl, hdeclared.2, hdeclared'.2⟩

/-- The type of a component is the one with the name that is declared. -/
theorem typeOf_eq_ok {m : Model} {c : Component} {domain : Domain} {declaredType : Option VariableType}
    (hnamed : m.types.Named) (h : typeOf m c = .ok (domain, declaredType)) :
    (∀ type, declaredType = some type →
      type.name = c.typeName ∧ m.types.get? c.typeName = some type) ∧
    (declaredType = none → c.typeName = domain.name) := by
  unfold typeOf at h
  cases hbuiltin : Domain.ofName? c.typeName with
  | some domain' =>
      rw [hbuiltin] at h
      obtain ⟨rfl, rfl⟩ := Prod.mk.inj (Except.ok.inj h)
      exact ⟨fun _ hnone => (nomatch hnone), fun _ => Domain.eq_name_of_ofName? hbuiltin⟩
  | none =>
      cases htype : m.types.get? c.typeName with
      | none =>
          simp only [hbuiltin, htype] at h
          cases h
      | some type =>
          simp only [hbuiltin, htype] at h
          obtain ⟨rfl, rfl⟩ := Prod.mk.inj (Except.ok.inj h)
          refine ⟨fun type' htype' => ?_, fun hnone => nomatch hnone⟩
          rw [← Option.some.inj htype']
          exact ⟨hnamed _ _ htype, rfl⟩

/-- The type that is assigned to the variable of a component is the one with the name that is
    declared. -/
theorem typeName_of_assign {m : Model} {c : Component} {var : Variable} {type : VariableType}
    {larger : TypeRegistry} (hnamed : m.types.Named)
    (htype : typeOf m c = .ok (var.domain, var.declaredType))
    (h : m.types.assign var = .ok (type, larger)) :
    larger.get? c.typeName = some type ∧ type.domain = var.domain ∧ m.types.WithBuiltins larger := by
  obtain ⟨hdeclaredName, hbuiltinName⟩ := typeOf_eq_ok hnamed htype
  have hdeclared (declared : VariableType) (hvar : var.declaredType = some declared) :
      m.types.get? declared.name = some declared := by
    rw [(hdeclaredName declared hvar).1]
    exact (hdeclaredName declared hvar).2
  obtain ⟨-, hdomain, -, hlarger⟩ := TypeRegistry.assign_eq_ok hnamed
    (fun declared hvar => by rw [hdeclared declared hvar]; rfl) h
  refine ⟨?_, hdomain, hlarger⟩
  have hfound := TypeRegistry.get?_of_assign h hdeclared
  cases hvar : var.declaredType with
  | some declared =>
      rw [hvar] at hfound
      rw [← (hdeclaredName declared hvar).1]
      exact hfound.2
  | none =>
      rw [hvar] at hfound
      rw [hbuiltinName hvar]
      exact hfound

/-- Setting attributes of a variable stores them. -/
theorem foldl_withAttribute_var_eq (values : List (String × Attribute)) (var : Variable) :
    values.foldl (fun var (name, value) => var.withAttribute name value) var =
      { var with attributes := Source.storeAll var.attributes values } := by
  induction values generalizing var with
  | nil => rfl
  | cons value values ih => exact ih (var.withAttribute value.1 value.2)

/-- The attributes are those that the component sets, with nodes of the graph. -/
structure SetBy (means : String → Expr → Prop) (c : Component) (g : Graph) (attributes : Attributes) :
    Prop where
  set : Source.SetFrom means (fun _ => none) c.allSettings attributes
  drawnFrom : Attributes.DrawnFrom g attributes

theorem setBy_storeAll {scope : Scope} {c : Component} {g : Graph} {values : List (String × Attribute)}
    (h : TranslatedSettings scope c.allSettings g values) :
    SetBy scope.Means c g (Source.storeAll ∅ values) where
  set := by
    have hset := Source.setFrom_storeAll h.translates ∅
    have hnone : (fun name : String => (∅ : Attributes)[name]?) = fun _ => none := by
      funext name
      simp
    rwa [hnone] at hset
  drawnFrom := by
    have hempty : Attributes.DrawnFrom g ∅ := fun name x hx => by simp at hx
    exact hempty.storeAll h.drawnFrom

section Components

variable {signatures : Signatures} {symbols : Symbols} {g : Graph}

/-- The attributes and the binding of a component are built. -/
theorem completeVariable_translates {I : Model → Prop} {c : Component} {declared : Variable}
    (hI : ∀ (m : Model) (supply : Supply), I m → I { m with supply })
    (hscope : (Scope.model symbols).DrawnFrom g) (hdeclared : declared.attributes = ∅)
    (hattributes : ∀ e ∈ Source.settingExpressions c.attributes,
      e.WellFormed signatures.Declares (Scope.model symbols).Known)
    (hbinding : ∀ e, c.binding = some e →
      e.WellFormed signatures.Declares (Scope.model symbols).Known) :
    Assembles g I (completeVariable signatures symbols c declared) fun g' built m =>
      (∃ attributes, built = some { declared with attributes } ∧
        SetBy (Scope.model symbols).Means c g' attributes) ∧ I m := by
  unfold completeVariable
  apply Assembles.elaborating_bind hI (elaborateAttributes_translates hscope hattributes)
  intro g₁ values hle₁ hvalues
  rw [foldl_withAttribute_var_eq, hdeclared]
  cases hcase : c.binding with
  | none =>
      apply Grows.pure
      intro draft hm
      have hall : c.allSettings = c.attributes := by
        rw [Component.allSettings, hcase, Option.map_none, Option.toList_none, List.append_nil]
      exact ⟨⟨_, rfl, setBy_storeAll (hall ▸ hvalues)⟩, hm⟩
  | some binding =>
      apply Assembles.elaborating_bind hI
        (elaborateExpression_translates signatures _ binding g₁ (hscope.mono hle₁) (hbinding binding hcase))
      rintro g₂ _ hle₂ ⟨value, hvalue, rfl, htranslates⟩
      apply Grows.pure
      intro draft hm
      have hvalues' : TranslatedSettings (.model symbols) c.allSettings g₂
          (values ++ [(Variable.bindingAttribute, .expr value)]) := by
        rw [Component.allSettings, hcase, Option.map_some, Option.toList_some]
        constructor
        · intro named hnamed x hx
          rcases List.mem_append.1 hnamed with hold | hself
          · exact hle₂ x (hvalues.drawnFrom named hold x hx)
          · obtain rfl := List.mem_singleton.1 hself
            rwa [← Attribute.expr.inj hx]
        · exact List.rel_append hvalues.translates (.cons ⟨rfl, .expression htranslates⟩ .nil)
      refine ⟨⟨_, ?_, setBy_storeAll hvalues'⟩, hm⟩
      rw [Source.storeAll_append]
      rfl

end Components

/-! ### Registered components -/

/-- The `done` components are registered as what they declare, with their aliases, and beside them the
    model consists of the outlined parts and perhaps of built-in types. No operation on the way to it
    changed a kind. -/
structure Peopled (isType : String → Prop) (o : Outline) (means : String → Expr → Prop) (g : Graph)
    (aliasFor : Component × VarId → Option Alias) (done : List (Component × VarId)) (m : Model) : Prop
    extends Populated isType done m where
  rest : m = { o.model m.supply with
    store := m.store, registered := m.registered, names := m.names, types := m.types }
  reached : ∃ ops, m.ReachedBy ops
  builtins : o.types.WithBuiltins m.types
  kinded : m.Kinded
  components : ∀ p ∈ done, p.1.TranslatesTo means m.types (m.store.get p.2)
  drawnFrom : ∀ p ∈ done, Attributes.DrawnFrom g (m.store.get p.2).attributes
  aliases : ∀ p ∈ done, (m.store.get p.2).aliasOf = aliasFor p

/-- At first there is no variable. -/
theorem Outlined.peopled {o : Outline} {m : Model} (h : Outlined o m) {isType : String → Prop}
    (htypes : TypesKnown isType o.types) (means : String → Expr → Prop) (g : Graph)
    (aliasFor : Component × VarId → Option Alias) : Peopled isType o means g aliasFor [] m where
  types := by
    rw [h.eq]
    exact htypes
  apart := h.reached.elim fun _ hops => hops.registeredApart
  registered := by
    rw [h.eq]
    rfl
  names := fun p hp => absurd hp List.not_mem_nil
  rest := by
    rw [h.eq]
    rfl
  reached := h.reached
  builtins := by
    rw [h.eq]
    exact .refl _
  kinded := by
    intro v hv
    rw [h.eq] at hv
    simp [Outline.model] at hv
  components := fun p hp => absurd hp List.not_mem_nil
  drawnFrom := fun p hp => absurd hp List.not_mem_nil
  aliases := fun p hp => absurd hp List.not_mem_nil

namespace Peopled

variable {isType : String → Prop} {o : Outline} {means : String → Expr → Prop} {g g' : Graph}
  {aliasFor aliasFor' : Component × VarId → Option Alias} {done : List (Component × VarId)} {m : Model}
  (h : Peopled isType o means g aliasFor done m)
include h

theorem mono (hle : g ≤ g') : Peopled isType o means g' aliasFor done m :=
  { h with drawnFrom := fun p hp => (h.drawnFrom p hp).mono hle }

theorem supplied (supply : Supply) : Peopled isType o means g aliasFor done { m with supply } where
  toPopulated := ⟨h.types, h.apart.of_keeps (.of_eq rfl rfl rfl), h.registered, h.names⟩
  rest := by
    rw [h.rest]
    rfl
  reached := by
    obtain ⟨ops, hops⟩ := h.reached
    exact ⟨_, hops.step_silent (.makeNodes supply) trivial rfl (fun _ _ => rfl) rfl⟩
  builtins := h.builtins
  kinded := h.kinded
  components := h.components
  drawnFrom := h.drawnFrom
  aliases := h.aliases

/-- Links and aliases may change. -/
theorem withStore {store : Variables}
    (hcells : ∀ p ∈ done, ∃ derivative differentiated,
      store.get p.2 = { m.store.get p.2 with derivative, differentiated, aliasOf := aliasFor' p })
    (hreached : ∃ ops, Model.ReachedBy ops { m with store }) :
    Peopled isType o means g aliasFor' done { m with store } where
  types := h.types
  apart := hreached.elim fun _ hops => hops.registeredApart
  registered := h.registered
  names := by
    intro p hp
    obtain ⟨_, _, heq⟩ := hcells p hp
    simp only [heq]
    exact h.names p hp
  rest := by
    rw [h.rest]
    rfl
  reached := hreached
  builtins := h.builtins
  kinded := by
    intro v hv
    have hmem : v ∈ done.map Prod.snd := h.registered ▸ Array.mem_toList_iff.2 hv
    obtain ⟨p, hp, rfl⟩ := List.mem_map.1 hmem
    obtain ⟨_, _, heq⟩ := hcells p hp
    simp only [heq]
    exact h.kinded p.2 hv
  components := by
    intro p hp
    obtain ⟨_, _, heq⟩ := hcells p hp
    simp only [heq]
    exact (h.components p hp).rewired _ _ _
  drawnFrom := by
    intro p hp
    obtain ⟨_, _, heq⟩ := hcells p hp
    simp only [heq]
    exact h.drawnFrom p hp
  aliases := by
    intro p hp
    obtain ⟨_, _, heq⟩ := hcells p hp
    simp only [heq]

/-- The links of the last pass. -/
theorem resolveLinks : Peopled isType o means g aliasFor done m.resolveLinks.2 := by
  have hrelinks := h.kinded.resolveLinks
  have hreached : ∃ ops, m.resolveLinks.2.ReachedBy ops := by
    obtain ⟨ops, hops⟩ := h.reached
    exact ⟨_, hops.step_resolveLinks h.kinded⟩
  rw [hrelinks.rest] at hreached ⊢
  apply h.withStore _ hreached
  intro p hp
  obtain ⟨derivative, differentiated, heq⟩ := hrelinks.cells p.2
  refine ⟨derivative, differentiated, ?_⟩
  rw [heq, ← h.aliases p hp]

/-- An alias that is set for one variable. -/
theorem setAlias {v : VarId} {target : VarId} {negated : Bool}
    (halias : ∀ p ∈ done, aliasFor' p = if p.2 = v then some { target, negated } else aliasFor p) :
    Peopled isType o means g aliasFor' done
      (m.modifyVariable v fun var => { var with aliasOf := some { target, negated } }) := by
  apply h.withStore
  · intro p hp
    refine ⟨(m.store.get p.2).derivative, (m.store.get p.2).differentiated, ?_⟩
    rw [Variables.get_modify, halias p hp]
    by_cases hv : v = p.2
    · have hexist : v.index < m.store.cells.size := by
        rw [hv]
        exact h.exist p hp
      rw [if_pos ⟨hv, hexist⟩, if_pos hv.symm]
    · rw [if_neg fun hboth => hv hboth.1, if_neg (Ne.symm hv), ← h.aliases p hp]
  · obtain ⟨ops, hops⟩ := h.reached
    refine ⟨_, hops.step_silent (.setAlias v target negated) trivial rfl ?_ rfl⟩
    intro w _
    change ((m.store.modify v _).get w).kind = _
    rw [Variables.get_modify]
    split <;> rfl

/-- One more component is registered as what it declares. -/
theorem register {c : Component} {declared : Variable} {id : NodeId} {attributes : Attributes}
    (hdeclared : declaredVariable m c (.symbol id c.name) = .ok declared)
    (hmeans : means c.name (.symbol id c.name)) (hset : SetBy means c g attributes)
    (hnew : c.name ∉ done.map (·.1.name)) (hnone : ∀ v, aliasFor (c, v) = none) :
    ∃ m', (Model.addVariable (m.createVariable { declared with attributes }).1).run
        (m.createVariable { declared with attributes }).2 = .ok () m' ∧ m'.supply = m.supply ∧
      Peopled isType o means g aliasFor
        (done ++ [(c, (m.createVariable { declared with attributes }).1)]) m' := by
  have hspec := declaredVariable_spec h.types c (.symbol id c.name)
  rw [hdeclared, Expr.print_symbol] at hspec
  obtain ⟨domain, declaredType, causality, variability, rfl, htype, hvariability, hcausality⟩ :=
    declaredVariable_eq_ok hdeclared
  let var : Variable :=
    { symbol := .symbol id c.name, domain, causality, variability, declaredType, attributes }
  let v := (m.createVariable var).1
  let m₁ := (m.createVariable var).2
  obtain ⟨hcreated, hexist, hget⟩ := h.toPopulated.create var
  have hold {p : Component × VarId} (hp : p ∈ done) : m₁.store.get p.2 = m.store.get p.2 :=
    Variables.get_create _ _ (h.exist p hp)
  have hfits : Fits m₁.types c.name (m₁.store.get v) := by
    rw [hget]
    exact ⟨hspec.2.name, hspec.2.continuous, hspec.2.declaredType⟩
  obtain ⟨m', hrun, hpopulated⟩ := hcreated.register hfits hexist hnew
  obtain ⟨classification, type, types, hfree, hclassify, hassign, hm'⟩ := Model.addVariable_eq_ok hrun
  have hnotMem := hcreated.apart.not_mem_registered hfree
  have hkinded : m₁.Kinded := by
    intro w hw
    have hmem : w ∈ done.map Prod.snd := h.registered ▸ Array.mem_toList_iff.2 hw
    obtain ⟨p, hp, rfl⟩ := List.mem_map.1 hmem
    rw [hold hp]
    exact h.kinded p.2 hw
  have hderivative : (m₁.store.get v).derivative = none := by rw [hget]
  have hdifferentiated : (m₁.store.get v).differentiated = none := by rw [hget]
  have hregistered : Model.RegisteredAs m₁ m' v type types := by
    rw [hm']
    exact hkinded.register hexist hnotMem hderivative hdifferentiated hclassify type types
  obtain ⟨hfound, hdomain, hlarger⟩ :=
    typeName_of_assign h.types.named htype (hget ▸ hassign : m.types.assign var = .ok (type, types))
  have htypes : m'.types = types := by rw [hregistered.rest]
  have hreached : ∃ ops, m'.ReachedBy ops := by
    obtain ⟨ops, hops⟩ := h.reached
    have hcreate : m₁.ReachedBy (ops ++ [.create var]) := by
      refine hops.step_silent (.create var) rfl rfl ?_ rfl
      intro w hw
      have hmem : w ∈ done.map Prod.snd := h.registered ▸ Array.mem_toList_iff.2 hw
      obtain ⟨p, hp, rfl⟩ := List.mem_map.1 hmem
      exact congrArg Variable.kind (hold hp)
    have hafter : (Operation.addVariable v).run m₁ = m' := by
      change (Model.addVariable v).after m₁ = m'
      rw [Action.after, hrun]
    have hkind := (classify_unlinked hderivative hdifferentiated hclassify).1
    refine ⟨_, hafter ▸ hcreate.step (.addVariable v) hexist
      (hregistered.keepsKinds hnotMem hafter hclassify hkind) ?_⟩
    rw [hafter, hregistered.rest]
    exact Array.toList_push
  -- what is known of a component carries over to the new model, for the new one and for the others
  have hcells (P : Component × VarId → Variable → Prop)
      (hrelinked : ∀ p a b, Variable.Relinked a b → P p a → P p b)
      (hself : P (c, v)
        { var with declaredType := some type, kind := some (var.kindFrom m₁.relations) })
      (hothers : ∀ p ∈ done, P p (m.store.get p.2)) :
      ∀ p ∈ done ++ [(c, v)], P p (m'.store.get p.2) := by
    intro p hp
    rcases List.mem_append.1 hp with hp | hp
    · have hne : p.2 ≠ v := by
        intro heq
        have hless := h.exist p hp
        rw [heq] at hless
        exact absurd hless (Nat.lt_irrefl _)
      apply hrelinked _ _ _ (hregistered.others p.2 hne)
      rw [hold hp]
      exact hothers p hp
    · obtain rfl := List.mem_singleton.1 hp
      apply hrelinked _ _ _ hregistered.self
      rw [hget]
      exact hself
  refine ⟨m', hrun, ?_, hpopulated, ?_, hreached, ?_, hregistered.kinded hkinded, ?_, ?_, ?_⟩
  · rw [hregistered.rest]
    rfl
  · rw [hregistered.rest]
    change { m with
        store := m'.store
        types
        registered := m.registered.push v
        names := m.names.insert (m₁.store.get v).name m.registered.size
        parametersValid := false } = _
    rw [h.rest]
    rfl
  · rw [htypes]
    exact h.builtins.trans hlarger
  · rw [htypes]
    apply hcells (fun p var => p.1.TranslatesTo means types var) fun _ _ _ hlinks hc => hc.relinked hlinks
    · exact ⟨⟨id, rfl⟩, hmeans, ⟨type, hfound, rfl, hdomain⟩, hvariability, hcausality, hset.set⟩
    · exact fun p hp => (h.components p hp).withBuiltins hlarger
  · apply hcells (fun _ var => Attributes.DrawnFrom g var.attributes)
    · rintro _ _ _ ⟨_, _, rfl⟩ hdrawn
      exact hdrawn
    · exact hset.drawnFrom
    · exact h.drawnFrom
  · apply hcells (fun p var => var.aliasOf = aliasFor p)
    · rintro _ _ _ ⟨_, _, rfl⟩ halias
      exact halias
    · exact (hnone v).symm
    · exact h.aliases

end Peopled

/-! ### Components in order -/

section Components

variable {isType : String → Prop} {o : Outline} {means : String → Expr → Prop} {signatures : Signatures}
  {symbols : Symbols} {g g' : Graph} {aliasFor : Component × VarId → Option Alias}
  {done : List (Component × VarId)} {c : Component} {id : NodeId}

/-- The variable is what a component declares, and the components before it are registered. -/
def Prepared (isType : String → Prop) (o : Outline) (means : String → Expr → Prop) (g : Graph)
    (aliasFor : Component × VarId → Option Alias) (done : List (Component × VarId)) (c : Component)
    (id : NodeId) (var : Variable) (m : Model) : Prop :=
  ∃ declared attributes, var = { declared with attributes } ∧
    declaredVariable m c (.symbol id c.name) = .ok declared ∧ SetBy means c g attributes ∧
    Peopled isType o means g aliasFor done m

/-- A component is built with its symbol, if it is well formed. -/
theorem buildVariable_translates
    (hc : c.WellFormed isType signatures.Declares (Scope.model symbols).Known)
    (hscope : (Scope.model symbols).DrawnFrom g) (htime : c.name ≠ timeName)
    (hsymbol : symbols[c.name]? = some (.symbol id c.name)) :
    Assembles g (Peopled isType o (Scope.model symbols).Means g aliasFor done)
      (buildVariable signatures symbols c)
      fun g' built m => ∃ var, built = some var ∧
        Prepared isType o (Scope.model symbols).Means g' aliasFor done c id var m := by
  unfold buildVariable
  rw [if_neg (by simpa using htime), hsymbol]
  apply Assembles.get_bind
  intro start
  cases hdeclared : declaredVariable start.model c (.symbol id c.name) with
  | error problem =>
      apply Grows.assume (P := False) _ False.elim
      rintro draft ⟨hstart, hm⟩
      have hspec := declaredVariable_spec hm.types c (.symbol id c.name)
      rw [← hstart, hdeclared] at hspec
      exact hspec hc.head
  | ok declared =>
      obtain ⟨_, _, _, _, hblank, -⟩ := declaredVariable_eq_ok hdeclared
      let I (m : Model) : Prop :=
        declaredVariable m c (.symbol id c.name) = .ok declared ∧
          Peopled isType o (Scope.model symbols).Means g aliasFor done m
      have hcomplete : Assembles g I (completeVariable signatures symbols c declared) _ :=
        completeVariable_translates (fun m supply hm => ⟨hm.1, hm.2.supplied supply⟩) hscope
          (by rw [hblank]) hc.attributes hc.binding
      apply hcomplete.weaken
      · rintro draft ⟨hstart, hm⟩
        exact ⟨hstart ▸ hdeclared, hm⟩
      · rintro g' _ draft hle ⟨⟨attributes, rfl, hset⟩, hsame, hm⟩
        exact ⟨_, rfl, declared, attributes, rfl, hsame, hset, hm.mono hle⟩

/-- A variable is created with what was prepared. -/
theorem createVariable_translates (var : Variable) :
    Assembles g (Prepared isType o means g aliasFor done c id var) (modifyModel (·.createVariable var))
      fun _ v m' => ∃ m, Prepared isType o means g aliasFor done c id var m ∧
        m.createVariable var = (v, m') :=
  Assembles.modifyModel (fun _ _ => rfl) fun m hm => ⟨m, hm, rfl⟩

/-- The variable that is created for a component of a new name can be registered. -/
theorem attempt_addVariable_translates {var : Variable} {v : VarId} (hle : g ≤ g')
    (hmeans : means c.name (.symbol id c.name)) (hnew : c.name ∉ done.map (·.1.name))
    (hnone : ∀ p, aliasFor p = none) :
    Assembles g' (fun m' => ∃ m, Prepared isType o means g aliasFor done c id var m ∧
        m.createVariable var = (v, m'))
      (attempt c.start (Model.addVariable v)) fun g' registered m =>
        registered = true ∧ Peopled isType o means g' aliasFor (done ++ [(c, v)]) m := by
  apply Assembles.attempt
  rintro m' ⟨m, ⟨declared, attributes, rfl, hdeclared, hset, hm⟩, hcreated⟩
  obtain ⟨m'', hrun, hsupply, hm''⟩ := hm.register hdeclared hmeans hset hnew fun v => hnone (c, v)
  rw [hcreated] at hrun hm''
  have hkept := congrArg (fun created => created.2.supply) hcreated
  exact ⟨m'', hrun, hsupply.trans hkept, hm''.mono hle⟩

/-- The components are registered in order, if they are well formed and their names are new. -/
theorem buildVariables_translates {time : Expr} {names : List String} {before : Graph}
    (hsymbols : SymbolsOf time names before g symbols) (cs : List Component)
    (hcs : ∀ c ∈ cs, c.WellFormed isType signatures.Declares (Scope.model symbols).Known)
    (hnames : ∀ c ∈ cs, c.name ≠ timeName ∧ c.name ∈ names) (done : List (Component × VarId))
    (hnew : NewNames (done.map (·.1.name)) (cs.map (·.name))) (hnone : ∀ p, aliasFor p = none) :
    Assembles g (Peopled isType o (Scope.model symbols).Means g aliasFor done)
      (buildVariables signatures symbols cs) fun g' more m => more.map Prod.fst = cs ∧
        Peopled isType o (Scope.model symbols).Means g' aliasFor (done ++ more) m := by
  induction cs generalizing g done with
  | nil =>
      rw [buildVariables]
      apply Grows.pure
      intro draft hm
      exact ⟨rfl, by rwa [List.append_nil]⟩
  | cons c cs ih =>
      obtain ⟨hc, hcs⟩ := List.forall_mem_cons.1 hcs
      obtain ⟨⟨htime, hname⟩, hnames⟩ := List.forall_mem_cons.1 hnames
      obtain ⟨hfree, hnew⟩ := newNames_cons_iff.1 hnew
      obtain ⟨symbol, hsymbol⟩ := Option.isSome_iff_exists.1 ((hsymbols.found c.name).2 hname)
      obtain ⟨id, rfl⟩ := hsymbols.symbol c.name symbol hsymbol
      have hscope : (Scope.model symbols).DrawnFrom g := hsymbols.drawnFrom
      rw [buildVariables]
      apply Grows.bind (buildVariable_translates hc hscope htime hsymbol)
      intro g₁ built hle₁
      cases built with
      | none =>
          refine Grows.assume (P := False) ?_ False.elim
          rintro _ ⟨_, hbuilt, _⟩
          cases hbuilt
      | some var =>
          have hprepared (draft : Draft) (hs : ∃ built, some var = some built ∧
              Prepared isType o (Scope.model symbols).Means g₁ aliasFor done c id built draft.model) :
              Prepared isType o (Scope.model symbols).Means g₁ aliasFor done c id var draft.model := by
            obtain ⟨_, hbuilt, hprepared⟩ := hs
            cases hbuilt
            exact hprepared
          apply Grows.restrict hprepared
          apply Grows.bind (createVariable_translates var)
          intro g₂ v hle₂
          apply Grows.bind (attempt_addVariable_translates hle₂ hsymbol hfree hnone)
          intro g₃ registered hle₃
          apply Grows.assume (P := registered = true) fun _ hs => hs.1
          rintro rfl
          apply Grows.restrict fun _ hs => hs.2
          have hle := le_trans hle₁ (le_trans hle₂ hle₃)
          have hnew' : NewNames ((done ++ [(c, v)]).map (·.1.name)) (cs.map (·.name)) := by
            rwa [List.map_append]
          apply Grows.bind (ih (hsymbols.mono hle) hcs hnames (done ++ [(c, v)]) hnew')
          intro g₄ more _
          apply Grows.pure
          rintro draft ⟨hmore, hm⟩
          rw [← List.append_cons] at hm
          exact ⟨congrArg (c :: ·) hmore, hm⟩

end Components

/-! ### Aliases -/

section Aliases

variable {isType : String → Prop} {o : Outline} {means : String → Expr → Prop} {g : Graph}
  {all done : List (Component × VarId)} {c : Component} {v : VarId}

/-- The alias that a component is declared to be, among all components with their variables. -/
def aliasIn (all : List (Component × VarId)) (c : Component) : Option Alias := do
  let clause ← c.aliasOf
  let target ← all.find? (·.1.name = clause.target)
  return { target := target.2, negated := clause.negated }

/-- Of components with different names the one that is named is the target. -/
theorem aliasIn_eq_some (hdistinct : (all.map (·.1.name)).Nodup) {clause : Source.AliasClause}
    (hclause : c.aliasOf = some clause) {q : Component × VarId} (hq : q ∈ all)
    (hname : q.1.name = clause.target) :
    aliasIn all c = some { target := q.2, negated := clause.negated } := by
  have hfind := Source.find?_eq_some_of_nodup (fun p : Component × VarId => p.1.name) hdistinct hq
  rw [hname] at hfind
  simp [aliasIn, hclause, hfind]

/-- The alias of a component when those of some components are set. -/
def aliasAfter (all done : List (Component × VarId)) (p : Component × VarId) : Option Alias :=
  if p.1.name ∈ done.map (·.1.name) then aliasIn all p.1 else none

/-- In the end all aliases are set. -/
theorem aliasAfter_all {p : Component × VarId} (hp : p ∈ all) : aliasAfter all all p = aliasIn all p.1 :=
  if_pos (List.mem_map.2 ⟨p, hp, rfl⟩)

/-- With one more alias set, those of the other components are as before. -/
theorem aliasAfter_concat (p : Component × VarId) :
    aliasAfter all (done ++ [(c, v)]) p =
      if p.1.name = c.name then aliasIn all p.1 else aliasAfter all done p := by
  have hmem : p.1.name ∈ (done ++ [(c, v)]).map (·.1.name) ↔
      p.1.name ∈ done.map (·.1.name) ∨ p.1.name = c.name := by
    rw [List.map_append, List.mem_append, List.map_singleton, List.mem_singleton]
  unfold aliasAfter
  by_cases hname : p.1.name = c.name
  · rw [if_pos (hmem.2 (Or.inr hname)), if_pos hname]
  · simp only [hmem, hname, or_false, if_false]

/-- Components with the same name are the same one. -/
theorem Peopled.eq_of_name {aliasFor : Component × VarId → Option Alias} {m : Model}
    (h : Peopled isType o means g aliasFor done m) {p q : Component × VarId} (hp : p ∈ done)
    (hq : q ∈ done) (hname : p.1.name = q.1.name) : p = q :=
  List.inj_on_of_nodup_map h.distinct hp hq hname

/-- An alias that is well formed becomes the declared one. -/
theorem buildAlias_translates (hmem : (c, v) ∈ all)
    (halias : c.AliasWellFormed (· ∈ all.map (·.1.name))) :
    Assembles g (Peopled isType o means g (aliasAfter all done) all) (buildAlias c v)
      fun g' _ => Peopled isType o means g' (aliasAfter all (done ++ [(c, v)])) all := by
  unfold buildAlias
  cases hclause : c.aliasOf with
  | none =>
      apply Grows.pure
      intro draft hm
      refine { hm with aliases := fun p hp => ?_ }
      rw [aliasAfter_concat, hm.aliases p hp]
      split
      · rename_i hname
        obtain rfl := hm.eq_of_name hp hmem hname
        simp [aliasAfter, aliasIn, hclause]
      · rfl
  | some clause =>
      obtain ⟨htarget, hother⟩ := halias clause hclause
      apply Assembles.get_bind
      intro start
      cases hfind : start.model.findVariable? clause.target with
      | none =>
          apply Grows.assume (P := False) _ False.elim
          rintro draft ⟨hstart, hm⟩
          have hsome := (hm.isSome_findVariable?_iff clause.target).2 htarget
          rw [← hstart, hfind] at hsome
          cases hsome
      | some target =>
          apply Grows.assume (P := target ≠ v) _ fun hne => ?_
          · rintro draft ⟨hstart, hm⟩
            exact mt (hm.findVariable?_eq_iff hmem (hstart ▸ hfind)).1 hother
          simp only [beq_eq_false_iff_ne.2 hne, Bool.false_eq_true, if_false]
          let I (m : Model) : Prop :=
            start.model = m ∧ Peopled isType o means g (aliasAfter all done) all m
          let J (g' : Graph) (_ : Unit) (m : Model) : Prop :=
            Peopled isType o means g' (aliasAfter all (done ++ [(c, v)])) all m
          apply Assembles.modifyModel (I := I) (J := J) fun _ _ => rfl
          rintro m ⟨hstart, hm⟩
          have hfound := hm.findVariable? clause.target
          rw [← hstart, hfind] at hfound
          obtain ⟨q, hq, rfl, hname⟩ := hfound
          apply hm.setAlias
          intro p hp
          rw [aliasAfter_concat]
          by_cases hself : p.1.name = c.name
          · obtain rfl := hm.eq_of_name hp hmem hself
            rw [if_pos rfl, if_pos rfl]
            exact aliasIn_eq_some hm.distinct hclause hq hname
          · have hplace : p.2 ≠ v := by
              intro heq
              apply hself
              rw [← hm.names p hp, heq]
              exact hm.names (c, v) hmem
            rw [if_neg hself, if_neg hplace]

/-- The aliases of all components become the declared ones. -/
theorem buildAliases_translates
    (haliases : ∀ p ∈ all, p.1.AliasWellFormed (· ∈ all.map (·.1.name))) :
    Assembles g (Peopled isType o means g (fun _ => none) all) (all.forM fun (c, v) => buildAlias c v)
      fun g' _ => Peopled isType o means g' (fun p => aliasIn all p.1) all := by
  have hall : Assembles g (Peopled isType o means g (aliasAfter all []) all)
      (all.forM fun (c, v) => buildAlias c v) fun g' _ =>
        Peopled isType o means g' (aliasAfter all all) all := by
    apply Grows.forM (I := fun done g (draft : Draft) =>
      Peopled isType o means g (aliasAfter all done) all draft.model)
    rintro g' done rest ⟨c, v⟩ hsplit -
    have hmem : (c, v) ∈ all := hsplit ▸ List.mem_append_right _ List.mem_cons_self
    exact buildAlias_translates hmem (haliases _ hmem)
  apply hall.weaken fun _ hs => hs
  intro g' _ draft _ hm
  exact { hm with aliases := fun p hp => (hm.aliases p hp).trans (aliasAfter_all hp) }

end Aliases

end Elaboration

end FlatDae
