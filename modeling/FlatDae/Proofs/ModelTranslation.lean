/-
Module: FlatDae.Proofs.ModelTranslation
Purpose: What the model of a text is. Everything that the text declares is in the model, once and in the
  order of the text, and nothing else is. Names of equations and of attributes stand for the symbols of
  the registered variables themselves, and the inputs of a function for nothing outside the function.
Main exports: Model.Means, Model.NodesIn, Model.Assembled, Source.Model.TranslatesTo,
  buildModel_translates, elaborateModel_translates
-/
import FlatDae.Proofs.ComponentTranslation
import FlatDae.Proofs.ModelElaboration

namespace FlatDae

open FlatDae.Expr (Graph)
open Elaboration (timeName SidesIn)

/-! ### Names of a model -/

namespace Model

/-- What a name stands for in the equations of a model: the time variable, or the symbol of the
    registered variable that has the name. -/
def Means (m : Model) (name : String) (symbol : Expr) : Prop :=
  (name = timeName ∧ m.time = some symbol) ∨
    ∃ v ∈ m.registered, (m.store.get v).name = name ∧ (m.store.get v).symbol = symbol

/-- Everything in the model is made of nodes of the graph. -/
structure NodesIn (m : Model) (g : Graph) : Prop where
  meant : ∀ name symbol, m.Means name symbol → symbol ∈ g
  attributes : ∀ v ∈ m.registered, Attributes.DrawnFrom g (m.store.get v).attributes
  types : ∀ name type, m.types.get? name = some type → Attributes.DrawnFrom g type.attributes
  inputs : ∀ (name : String) (f : ModelFunction), m.functions[name]? = some f → ∀ input ∈ f.inputs,
    input ∈ g
  outputs : m.functions.DrawnFrom g
  initialEquations : SidesIn g m.initialEquations.toList
  daeEquations : SidesIn g m.daeEquations.toList

/-- How the parts of the model of a text hang together, whatever the text says. -/
structure Assembled (m : Model) : Prop where
  nodes : ∃ g, m.NodesIn g
  /-- No name of an equation stands for an input of a function. -/
  inputsApart : ∀ (function : String) (f : ModelFunction), m.functions[function]? = some f →
    ∀ input ∈ f.inputs, ∀ name, ¬ m.Means name input
  /-- No two functions share an input. -/
  functionsApart : ∀ (function function' : String) (f f' : ModelFunction),
    m.functions[function]? = some f → m.functions[function']? = some f' →
    ∀ input ∈ f.inputs, input ∈ f'.inputs → function = function'
  relations : m.relations =
    (m.initialEquations ++ m.daeEquations).filterMap DerivativeRelation.ofEquation?
  kinded : m.Kinded
  /-- The last operation on the way to the model makes the links that were left open. -/
  reached : ∃ ops, m.ReachedBy (ops ++ [.resolveLinks])
  /-- No values are calculated yet. -/
  outdated : m.parametersValid = false

theorem Assembled.registeredApart {m : Model} (h : m.Assembled) : m.RegisteredApart := by
  obtain ⟨ops, hreached⟩ := h.reached
  exact Reachable.registeredApart hreached.follows.runs

end Model

/-! ### Texts and what they become -/

namespace Source

/-- The variable is an alias of the variable that the component names. -/
def Component.AliasedTo (m : FlatDae.Model) (c : Component) (var : Variable) : Prop :=
  match c.aliasOf with
  | none => var.aliasOf = none
  | some clause => ∃ target ∈ m.registered, (m.store.get target).name = clause.target ∧
      var.aliasOf = some { target, negated := clause.negated }

/-- The registered variable is what the component declares. -/
structure Component.RegisteredAs (m : FlatDae.Model) (c : Component) (v : VarId) : Prop
    extends c.TranslatesTo m.Means m.types (m.store.get v) where
  aliasOf : c.AliasedTo m (m.store.get v)

/-- The model says what the text says: no part of the text is missing from it, and it has no other. -/
structure Model.TranslatesTo (text : Source.Model) (m : FlatDae.Model) : Prop where
  time : ∃ id, m.time = some (.symbol id timeName)
  types : ∀ d ∈ text.types, ∃ type, m.types.get? d.name = some type ∧ d.TranslatesTo type
  /-- The other types are built-in ones. -/
  onlyTypes : ∀ name type, m.types.get? name = some type →
    (∃ d ∈ text.types, d.name = name) ∨ ∃ domain : Domain, name = domain.name ∧ type = .builtin domain
  functions : ∀ d ∈ text.functions, ∃ f, m.functions[d.name]? = some f ∧ d.TranslatesTo f
  onlyFunctions : ∀ name f, m.functions[name]? = some f → ∃ d ∈ text.functions, d.name = name
  components : List.Forall₂ (Component.RegisteredAs m) text.components m.registered.toList
  initialEquations : List.Forall₂ (Equation.TranslatesTo m.Means) text.initialEquations
    m.initialEquations.toList
  equations : List.Forall₂ (Equation.TranslatesTo m.Means) text.equations m.daeEquations.toList

theorem AttributeValue.TranslatesTo.mono {means means' : String → Expr → Prop} {value : AttributeValue}
    {stored : Attribute} (h : value.TranslatesTo means stored)
    (hmeans : ∀ name symbol, means name symbol → means' name symbol) :
    value.TranslatesTo means' stored := by
  cases h with
  | text start s => exact .text start s
  | expression he => exact .expression (he.mono hmeans)

theorem SetFrom.mono {means means' : String → Expr → Prop} {defaults : String → Option Attribute}
    {settings : List AttributeSetting} {attributes : Attributes}
    (h : SetFrom means defaults settings attributes)
    (hmeans : ∀ name symbol, means name symbol → means' name symbol) :
    SetFrom means' defaults settings attributes := by
  intro name
  have hname := h name
  split at hname
  · obtain ⟨stored, hstored, hvalue⟩ := hname
    exact ⟨stored, hstored, hvalue.mono hmeans⟩
  · exact hname

theorem Component.TranslatesTo.mono {means means' : String → Expr → Prop} {types : TypeRegistry}
    {c : Component} {var : Variable} (h : c.TranslatesTo means types var)
    (hmeans : ∀ name symbol, means name symbol → means' name symbol) :
    c.TranslatesTo means' types var :=
  { h with meaning := hmeans _ _ h.meaning, attributes := h.attributes.mono hmeans }

theorem Equation.TranslatesTo.mono {means means' : String → Expr → Prop} {eq : Equation}
    {built : FlatDae.Equation} (h : eq.TranslatesTo means built)
    (hmeans : ∀ name symbol, means name symbol → means' name symbol) : eq.TranslatesTo means' built :=
  ⟨h.lhs.mono hmeans, h.rhs.mono hmeans⟩

end Source

namespace Elaboration

open Source (Component)

/-! ### The parts together -/

/-- The declared types and functions as parts of a model, with the symbols of a text. -/
structure Declared (text : Source.Model) (time : Expr) (types : TypeRegistry) (functions : FunctionTable)
    (symbols : Symbols) (g : Graph) : Prop where
  shared : Graph.shared ≤ g
  isTime : ∃ id, time = .symbol id timeName
  typesOf : TypesOf text.types g types
  functionsOf : FunctionsOf time text.functions g functions
  /-- No component has an input of a function as its symbol. -/
  named : ∃ before : Graph, FunctionsOf time text.functions before functions ∧
    SymbolsOf time ([timeName] ++ text.components.map (·.name)) before g symbols

/-- The parts with the equations. -/
structure Laid (text : Source.Model) (symbols : Symbols) (g : Graph) (o : Outline) : Prop
    extends Declared text o.time o.types o.functions symbols g where
  initialEquations : List.Forall₂ (Source.Equation.TranslatesTo (Scope.model symbols).Means)
    text.initialEquations o.initialEquations.toList
  equations : List.Forall₂ (Source.Equation.TranslatesTo (Scope.model symbols).Means)
    text.equations o.daeEquations.toList
  initialSides : SidesIn g o.initialEquations.toList
  sides : SidesIn g o.daeEquations.toList

/-- The model is complete: its parts are laid out and all components are registered, with aliases. -/
structure Complete (text : Source.Model) (symbols : Symbols) (g : Graph) (o : Outline)
    (all : List (Component × VarId)) (m : Model) : Prop where
  laid : Laid text symbols g o
  components : all.map Prod.fst = text.components
  peopled : Peopled (· ∈ text.types.map (·.name)) o (Scope.model symbols).Means g
    (fun p => aliasIn all p.1) all m

namespace Complete

variable {text : Source.Model} {symbols : Symbols} {g : Graph} {o : Outline}
  {all : List (Component × VarId)} {m : Model} (h : Complete text symbols g o all m)
include h

theorem mem_registered_iff {v : VarId} : v ∈ m.registered ↔ ∃ p ∈ all, p.2 = v := by
  rw [← Array.mem_toList_iff, h.peopled.registered, List.mem_map]

/-- A name stands for the symbol that it was given. -/
theorem means_iff (name : String) (symbol : Expr) :
    m.Means name symbol ↔ (Scope.model symbols).Means name symbol := by
  obtain ⟨before, -, hsymbols⟩ := h.laid.named
  have htime : m.time = some o.time := by rw [h.peopled.rest]; rfl
  have hcomponent {p : Component × VarId} (hp : p ∈ all) :
      symbols[p.1.name]? = some (m.store.get p.2).symbol := (h.peopled.components p hp).meaning
  constructor
  · rintro (⟨rfl, hsymbol⟩ | ⟨v, hv, hname, rfl⟩)
    · rw [← Option.some.inj (htime.symm.trans hsymbol)]
      exact hsymbols.time
    · obtain ⟨p, hp, rfl⟩ := h.mem_registered_iff.1 hv
      rw [← hname, h.peopled.names p hp]
      exact hcomponent hp
  · intro hfound
    have hmem : name ∈ [timeName] ++ text.components.map (·.name) := by
      rw [← hsymbols.found]
      exact Option.isSome_of_eq_some hfound
    rcases List.mem_append.1 hmem with hname | hname
    · obtain rfl := List.mem_singleton.1 hname
      exact Or.inl ⟨rfl, htime.trans (hsymbols.time.symm.trans hfound)⟩
    · rw [← h.components, List.map_map, List.mem_map] at hname
      obtain ⟨p, hp, rfl⟩ := hname
      refine Or.inr ⟨p.2, h.mem_registered_iff.2 ⟨p, hp, rfl⟩, h.peopled.names p hp, ?_⟩
      exact Option.some.inj ((hcomponent hp).symm.trans hfound)

theorem functions_eq : m.functions = o.functions := by rw [h.peopled.rest]; rfl

theorem initialEquations_eq : m.initialEquations = o.initialEquations := by rw [h.peopled.rest]; rfl

theorem daeEquations_eq : m.daeEquations = o.daeEquations := by rw [h.peopled.rest]; rfl

/-- An alias is that of the variable that has the name. -/
theorem aliasedTo {p : Component × VarId} (hp : p ∈ all)
    (halias : p.1.AliasWellFormed text.IsComponent) : p.1.AliasedTo m (m.store.get p.2) := by
  have hvar := h.peopled.aliases p hp
  unfold Component.AliasedTo
  cases hclause : p.1.aliasOf with
  | none => simpa [aliasIn, hclause] using hvar
  | some clause =>
      obtain ⟨c, hc, hname⟩ := (halias clause hclause).1
      rw [← h.components] at hc
      obtain ⟨q, hq, rfl⟩ := List.mem_map.1 hc
      refine ⟨q.2, h.mem_registered_iff.2 ⟨q, hq, rfl⟩, (h.peopled.names q hq).trans hname, ?_⟩
      exact hvar.trans (aliasIn_eq_some h.peopled.distinct hclause hq hname)

/-- A complete model says what the text says. -/
theorem translatesTo (haliases : ∀ c ∈ text.components, c.AliasWellFormed text.IsComponent)
    (htypeNames : (text.types.map (·.name)).Nodup) (hfunctionNames : (text.functions.map (·.name)).Nodup) :
    text.TranslatesTo m where
  time := by
    obtain ⟨id, htime⟩ := h.laid.isTime
    refine ⟨id, ?_⟩
    rw [← htime, h.peopled.rest]
    rfl
  types := by
    intro d hd
    have hfound := (h.laid.typesOf.found d.name).2 (List.mem_map.2 ⟨d, hd, rfl⟩)
    obtain ⟨type, htype⟩ := Option.isSome_iff_exists.1 hfound
    obtain ⟨d', hd', hname, htranslates⟩ := h.laid.typesOf.translates d.name type htype
    obtain rfl := List.inj_on_of_nodup_map htypeNames hd' hd hname
    refine ⟨type, ?_, htranslates⟩
    rcases h.peopled.builtins d'.name with hsame | ⟨hnone, -⟩
    · exact hsame.trans htype
    · rw [htype] at hnone
      cases hnone
  onlyTypes := by
    intro name type htype
    rcases h.peopled.builtins name with hsame | ⟨-, domain, hname, hbuiltin⟩
    · obtain ⟨d, hd, hname, -⟩ := h.laid.typesOf.translates name type (hsame.symm.trans htype)
      exact Or.inl ⟨d, hd, hname⟩
    · exact Or.inr ⟨domain, hname, Option.some.inj (htype.symm.trans hbuiltin)⟩
  functions := by
    intro d hd
    obtain ⟨f, hf⟩ := Option.isSome_iff_exists.1 (h.laid.functionsOf.found d hd)
    obtain ⟨d', hd', hname, htranslates⟩ := h.laid.functionsOf.translates d.name f hf
    obtain rfl := List.inj_on_of_nodup_map hfunctionNames hd' hd hname
    exact ⟨f, by rw [h.functions_eq]; exact hf, htranslates⟩
  onlyFunctions := by
    intro name f hf
    rw [h.functions_eq] at hf
    obtain ⟨d, hd, hname, -⟩ := h.laid.functionsOf.translates name f hf
    exact ⟨d, hd, hname⟩
  components := by
    rw [← h.components, h.peopled.registered, List.forall₂_map_left_iff, List.forall₂_map_right_iff,
      List.forall₂_same]
    intro p hp
    have hc : p.1 ∈ text.components := h.components ▸ List.mem_map.2 ⟨p, hp, rfl⟩
    exact ⟨(h.peopled.components p hp).mono fun name symbol => (h.means_iff name symbol).2,
      h.aliasedTo hp (haliases p.1 hc)⟩
  initialEquations := by
    rw [h.initialEquations_eq]
    exact h.laid.initialEquations.imp fun _ _ heq => heq.mono fun name symbol => (h.means_iff name symbol).2
  equations := by
    rw [h.daeEquations_eq]
    exact h.laid.equations.imp fun _ _ heq => heq.mono fun name symbol => (h.means_iff name symbol).2

/-- A complete model is made of nodes of one graph, its names and inputs apart. -/
theorem assembled (hreached : ∃ ops, m.ReachedBy (ops ++ [.resolveLinks])) : m.Assembled where
  nodes := by
    obtain ⟨before, -, hsymbols⟩ := h.laid.named
    refine ⟨g, ?_, ?_, ?_, ?_, ?_, ?_, ?_⟩
    · exact fun name symbol hmeans => hsymbols.drawnFrom name symbol ((h.means_iff name symbol).1 hmeans)
    · intro v hv
      obtain ⟨p, hp, rfl⟩ := h.mem_registered_iff.1 hv
      exact h.peopled.drawnFrom p hp
    · intro name type htype
      rcases h.peopled.builtins name with hsame | ⟨-, domain, -, hbuiltin⟩
      · exact h.laid.typesOf.drawnFrom name type (hsame.symm.trans htype)
      · rw [Option.some.inj (htype.symm.trans hbuiltin)]
        exact (builtin_drawnFrom domain).mono h.laid.shared
    · intro name f hf input hinput
      rw [h.functions_eq] at hf
      exact (h.laid.functionsOf.inputs name f hf input hinput).1
    · rw [h.functions_eq]
      exact h.laid.functionsOf.outputs
    · rw [h.initialEquations_eq]
      exact h.laid.initialSides
    · rw [h.daeEquations_eq]
      exact h.laid.sides
  inputsApart := by
    intro function f hf input hinput name hmeans
    obtain ⟨before, hfunctions, hsymbols⟩ := h.laid.named
    rw [h.functions_eq] at hf
    obtain ⟨hbefore, htime⟩ := hfunctions.inputs function f hf input hinput
    have hfound : symbols[name]? = some input := (h.means_iff name input).1 hmeans
    by_cases hname : name = timeName
    · rw [hname, hsymbols.time] at hfound
      exact htime (Option.some.inj hfound).symm
    · exact hsymbols.new name input hfound hname hbefore
  functionsApart := by
    rw [h.functions_eq]
    exact h.laid.functionsOf.apart
  relations := by
    rw [h.initialEquations_eq, h.daeEquations_eq, h.peopled.rest]
    rfl
  kinded := h.peopled.kinded
  reached := hreached
  outdated := by
    rw [h.peopled.rest]
    rfl

end Complete

/-! ### Building the parts -/

theorem Declared.mono {text : Source.Model} {time : Expr} {types : TypeRegistry}
    {functions : FunctionTable} {symbols : Symbols} {g g' : Graph}
    (h : Declared text time types functions symbols g) (hle : g ≤ g') :
    Declared text time types functions symbols g' where
  shared := le_trans h.shared hle
  isTime := h.isTime
  typesOf := h.typesOf.mono hle
  functionsOf := h.functionsOf.mono hle
  named := by
    obtain ⟨before, hbefore, hsymbols⟩ := h.named
    exact ⟨before, hbefore, hsymbols.mono hle⟩

theorem Laid.mono {text : Source.Model} {symbols : Symbols} {g g' : Graph} {o : Outline}
    (h : Laid text symbols g o) (hle : g ≤ g') : Laid text symbols g' o :=
  { h with
    toDeclared := h.toDeclared.mono hle
    initialSides := h.initialSides.mono hle
    sides := h.sides.mono hle }

section Passes

variable {text : Source.Model} {time : Expr} {types : TypeRegistry} {functions : FunctionTable}
  {signatures : Signatures} {symbols : Symbols} {g : Graph}

/-- The names and signatures of a well formed text are those it is checked with. -/
theorem Declared.named_text (h : Declared text time types functions symbols g)
    (hsignatures : signatures.Are text.functions) (htext : text.WellFormed) :
    Named text signatures symbols := by
  obtain ⟨before, -, hsymbols⟩ := h.named
  refine ⟨hsignatures, hsymbols.toSymbolsAre, htext.componentNames, fun name hname htime => ?_⟩
  obtain ⟨c, hc, rfl⟩ := List.mem_map.1 hname
  exact htext.timeFree ⟨c, hc, List.mem_singleton.1 htime⟩

/-- The equations of a well formed text become those of the model, the initial ones first. -/
theorem buildAllEquations_translates {α : Type} {rest : Building α} {J : Graph → α → Model → Prop}
    (htext : text.WellFormed) (hnamed : Named text signatures symbols)
    (h : Declared text time types functions symbols g)
    (hrest : ∀ g' o, g ≤ g' → o.types = types → Laid text symbols g' o →
      Assembles g' (Outlined o) rest J) :
    Assembles g (Outlined { time, types, functions })
      (do
        buildEquations signatures symbols Model.addInitialEquation text.initialEquations
        buildEquations signatures symbols Model.addDaeEquation text.equations
        rest) J := by
  obtain ⟨before, -, hsymbols⟩ := h.named
  have hscope : (Scope.model symbols).DrawnFrom g := hsymbols.drawnFrom
  have hinitial := htext.initialEquations
  have hequations := htext.equations
  rw [← hnamed.signatures.declares, ← hnamed.known] at hinitial hequations
  let first (built : List Equation) : Outline :=
    { time, types, functions, initialEquations := built.toArray }
  apply Grows.bind (buildEquations_translates Model.addInitialEquation
    (I := fun built => Outlined (first built)) (fun _ _ supply hm => hm.supplied supply)
    (fun built m eq hm => by simpa [first] using hm.addInitialEquation rfl eq)
    (fun m eq => by unfold Model.addInitialEquation Model.learnRelation; split <;> rfl)
    text.initialEquations hinitial hscope [])
  intro g₁ _ hle₁
  apply Grows.choose
  intro initial
  apply Grows.assume fun _ hs => hs.1
  intro htranslates
  apply Grows.assume fun _ hs => hs.2.1
  intro hsides
  apply Grows.restrict fun _ hs => hs.2.2
  let second (built : List Equation) : Outline :=
    { first initial with daeEquations := built.toArray }
  apply Grows.bind (buildEquations_translates Model.addDaeEquation
    (I := fun built => Outlined (second built)) (fun _ _ supply hm => hm.supplied supply)
    (fun built m eq hm => by simpa [second, first] using hm.addDaeEquation eq)
    (fun m eq => by unfold Model.addDaeEquation Model.learnRelation; split <;> rfl)
    text.equations hequations (hscope.mono hle₁) [])
  intro g₂ _ hle₂
  apply Grows.choose
  intro equations
  apply Grows.assume fun _ hs => hs.1
  intro htranslates'
  apply Grows.assume fun _ hs => hs.2.1
  intro hsides'
  apply Grows.restrict fun _ hs => hs.2.2
  exact hrest g₂ (second equations) (le_trans hle₁ hle₂) rfl
    { toDeclared := h.mono (le_trans hle₁ hle₂), initialEquations := htranslates,
      equations := htranslates', initialSides := hsides.mono hle₂, sides := hsides' }

/-- The equations, components and aliases of a well formed text make its model complete. -/
theorem buildContents_translates (htext : text.WellFormed) (hsignatures : signatures.Are text.functions)
    (h : Declared text time types functions symbols g) :
    Assembles g (Outlined { time, types, functions }) (buildContents signatures symbols text)
      fun g' _ m => ∃ o all, Complete text symbols g' o all m := by
  have hnamed := h.named_text hsignatures htext
  have hcomponents := htext.components
  rw [← isType_eq, ← hnamed.signatures.declares, ← hnamed.known] at hcomponents
  unfold buildContents
  apply buildAllEquations_translates htext hnamed h
  rintro g₁ o hle₁ htypes hlaid
  obtain ⟨before, -, hsymbols⟩ := hlaid.named
  have hknown : TypesKnown (· ∈ text.types.map (·.name)) o.types := hlaid.typesOf.toOnlyTypes.known
  have hnames : ∀ c ∈ text.components,
      c.name ≠ timeName ∧ c.name ∈ [timeName] ++ text.components.map (·.name) := by
    intro c hc
    refine ⟨fun htime => htext.timeFree ⟨c, hc, htime⟩, List.mem_append_right _ ?_⟩
    exact List.mem_map.2 ⟨c, hc, rfl⟩
  apply Grows.restrict fun _ hs => hs.peopled hknown (Scope.model symbols).Means g₁ fun _ => none
  apply Grows.bind (buildVariables_translates hsymbols text.components hcomponents hnames []
    (newNames_nil_iff.2 htext.componentNames) fun _ => rfl)
  intro g₂ all hle₂
  apply Grows.assume fun _ hs => hs.1
  intro hall
  have haliases : ∀ p ∈ all, p.1.AliasWellFormed (· ∈ all.map (·.1.name)) := by
    intro p hp
    have hmap : all.map (·.1.name) = text.components.map (·.name) := by rw [← hall, List.map_map]; rfl
    rw [hmap, isComponent_eq]
    exact htext.aliases p.1 (hall ▸ List.mem_map.2 ⟨p, hp, rfl⟩)
  apply Grows.restrict fun _ hs => hs.2
  apply (buildAliases_translates haliases).weaken fun _ hs => hs
  intro g₃ _ draft hle₃ hm
  exact ⟨o, all, hlaid.mono (le_trans hle₂ hle₃), hall, hm⟩

/-- The last pass links derivatives and changes nothing else that the text says. -/
theorem Complete.resolveLinks {o : Outline} {all : List (Component × VarId)} {m : Model}
    (h : Complete text symbols g o all m) : Complete text symbols g o all m.resolveLinks.2 :=
  ⟨h.laid, h.components, h.peopled.resolveLinks⟩

/-- The time variable has its symbol first. -/
theorem buildTime_translates {α : Type} {rest : Expr → Building α} {J : Graph → α → Model → Prop}
    (hrest : ∀ g' id, Graph.shared ≤ g' → .symbol id timeName ∈ g' →
      Assembles g' (Typing (.symbol id timeName) [] g') (rest (.symbol id timeName)) J) :
    Assembles Graph.shared (· = {})
      (do
        let time ← elaborating (make (Fresh.symbol timeName))
        modifyModel fun m => ((), { m with time := some time })
        rest time) J := by
  let I (m : Model) : Prop := m = { supply := m.supply }
  have hblank : Assembles Graph.shared I
      (do
        let time ← elaborating (make (Fresh.symbol timeName))
        modifyModel fun m => ((), { m with time := some time })
        rest time) J := by
    apply Assembles.elaborating_bind (I := I) (fun m supply hm => by rw [hm])
      (Makes.make (Makes.symbol timeName))
    rintro g₁ _ hle₁ ⟨⟨id, rfl⟩, hmem, -⟩
    have hset : Assembles g₁ I
        (modifyModel fun m => ((), { m with time := some (.symbol id timeName) }))
        fun g' _ => Typing (.symbol id timeName) [] g' := by
      apply Assembles.modifyModel fun _ _ => rfl
      intro m hm
      refine ⟨{}, ⟨?_, ?_⟩, typesOf_nil g₁⟩
      · rw [hm]
        rfl
      · have hnodes : m.ReachedBy ([] ++ [.makeNodes m.supply]) := by
          rw [hm]
          exact Model.reachedBy_nil.step_silent (.makeNodes m.supply) trivial rfl (fun _ _ => rfl) rfl
        exact ⟨_, hnodes.step_silent (.setTime (.symbol id timeName)) trivial rfl (fun _ _ => rfl) rfl⟩
    apply Grows.bind hset
    intro g₂ _ hle₂
    exact hrest g₂ id (le_trans hle₁ hle₂) (hle₂ _ hmem)
  apply Grows.restrict _ hblank
  rintro draft hdraft
  simp only [I, hdraft]

/-- A well formed text has a model that says what it says. -/
theorem buildModel_translates (htext : text.WellFormed) :
    Assembles Graph.shared (· = {}) (buildModel text) fun _ _ m => text.TranslatesTo m ∧ m.Assembled := by
  unfold buildModel
  apply buildTime_translates
  intro g₁ id hle₁ htime
  apply Grows.bind (buildTypes_translates hle₁ htext.types htext.typeNames)
  intro g₂ _ hle₂
  apply Grows.choose
  intro types
  apply Grows.assume fun _ hs => hs.2
  intro htypes
  apply Grows.restrict fun _ hs => hs.1
  apply Grows.bind (signaturesOf_collects text.functions [] ∅ Signatures.are_nil
    (newNames_nil_iff.2 htext.functionNames))
  intro g₃ signatures hle₃
  apply Grows.assume fun _ hs => hs.1
  intro hsignatures
  have hfunctions := htext.functions
  rw [← hsignatures.declares] at hfunctions
  have htime₃ := hle₃ _ (hle₂ _ htime)
  have hstart (m : Model) (hm : Outlined { time := .symbol id timeName, types } m) :
      Functioning (.symbol id timeName) types [] g₃ m := ⟨∅, hm, functionsOf_nil _ g₃⟩
  apply Grows.restrict fun draft hs => hstart draft.model hs.2
  apply Grows.bind (buildFunctions_translates htime₃ hfunctions)
  intro g₄ _ hle₄
  apply Grows.choose
  intro functions
  apply Grows.assume fun _ hs => hs.2
  intro hfunctionsOf
  apply Grows.restrict fun _ hs => hs.1
  apply Grows.bind (symbolsOf_translates text.components (le_refl g₄) (symbolsOf_time (hle₄ _ htime₃))
    ⟨htext.componentNames, fun name hname heq => ?_⟩)
  · intro g₅ symbols hle₅
    apply Grows.assume fun _ hs => hs.1
    intro hsymbols
    apply Grows.restrict fun _ hs => hs.2
    have hle := le_trans hle₃ (le_trans hle₄ hle₅)
    have hdeclared : Declared text (.symbol id timeName) types functions symbols g₅ :=
      { shared := le_trans hle₁ (le_trans hle₂ hle)
        isTime := ⟨id, rfl⟩
        typesOf := htypes.mono hle
        functionsOf := hfunctionsOf.mono hle₅
        named := ⟨g₄, hfunctionsOf, hsymbols⟩ }
    apply Grows.bind (buildContents_translates htext hsignatures hdeclared)
    intro g₆ _ hle₆
    let I (m : Model) : Prop := ∃ o all, Complete text symbols g₆ o all m
    apply Assembles.modifyModel (I := I) (J := fun _ _ m => text.TranslatesTo m ∧ m.Assembled)
    · rintro m ⟨o, all, hcomplete⟩
      rw [hcomplete.peopled.kinded.resolveLinks.rest]
    rintro m ⟨o, all, hcomplete⟩
    have hlinked := hcomplete.resolveLinks
    obtain ⟨ops, hops⟩ := hcomplete.peopled.reached
    exact ⟨hlinked.translatesTo htext.aliases htext.typeNames htext.functionNames,
      hlinked.assembled ⟨ops, hops.step_resolveLinks hcomplete.peopled.kinded⟩⟩
  · obtain ⟨c, hc, rfl⟩ := List.mem_map.1 hname
    exact htext.timeFree ⟨c, hc, List.mem_singleton.1 heq⟩

end Passes

/-- A text has a model if it is built without a problem. -/
theorem elaborateModel_eq (text : Source.Model) :
    elaborateModel text =
      if ((buildModel text).run {}).2.problems.isEmpty then .ok ((buildModel text).run {}).2.model
      else .error ((buildModel text).run {}).2.problems.toList :=
  rfl

theorem typed_start : Typed [] ({} : Draft).model := ⟨onlyTypes_empty, rfl, rfl⟩

/-- A text that is built without a fault is well formed, and the model is the one that is built. -/
theorem elaborateModel_eq_ok {text : Source.Model} {m : Model} (h : elaborateModel text = .ok m) :
    text.WellFormed ∧ ((buildModel text).run {}).2.model = m := by
  rw [elaborateModel_eq] at h
  split at h
  · rename_i hempty
    refine ⟨?_, Except.ok.inj h⟩
    by_contra hfaulty
    have hreports := (buildModel_checks text).reports hfaulty {} typed_start
    rw [Array.isEmpty_iff_size_eq_zero] at hempty
    exact absurd hempty (Nat.ne_of_gt hreports)
  · cases h

/-- A well formed text has a model. -/
theorem exists_elaborateModel {text : Source.Model} (h : text.WellFormed) :
    ∃ m, elaborateModel text = .ok m := by
  have hnone := ((buildModel_checks text).passes h {} typed_start).1
  rw [elaborateModel_eq, if_pos (Array.isEmpty_iff_size_eq_zero.2 hnone)]
  exact ⟨_, rfl⟩

/-- The model of a text says what the text says. -/
theorem elaborateModel_translates {text : Source.Model} {m : Model} (h : elaborateModel text = .ok m) :
    text.WellFormed ∧ text.TranslatesTo m ∧ m.Assembled := by
  obtain ⟨htext, rfl⟩ := elaborateModel_eq_ok h
  obtain ⟨_, -, -, hm⟩ := buildModel_translates htext {} Graph.shared_below rfl
  exact ⟨htext, hm⟩

end Elaboration

end FlatDae
