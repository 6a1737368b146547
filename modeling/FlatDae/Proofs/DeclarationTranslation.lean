/-
Module: FlatDae.Proofs.DeclarationTranslation
Purpose: What becomes of the types, functions and equations of a text and of the names of its components.
  Every declaration has its object in the model, in the order of the text where there is an order, and
  nothing else gets there. The inputs of a function are nodes of their own, and so are the symbols of the
  components: no other declaration can refer to them.
Main exports: Source.TypeDeclaration.TranslatesTo, Source.FunctionDeclaration.TranslatesTo,
  Source.Equation.TranslatesTo, Outline, Outlined, buildTypes_translates, buildFunctions_translates,
  SymbolsOf, symbolsOf_translates, buildEquations_translates
-/
import FlatDae.Proofs.DeclarationElaboration
import FlatDae.Proofs.EvaluatorAgreement
import FlatDae.Proofs.ExpressionTranslation
import FlatDae.Proofs.RegisteredKinds
import Mathlib.Data.List.Nodup

namespace FlatDae

open FlatDae.Expr (Graph)

/-! ### Declarations and what they become -/

namespace Source

/-- The type has the name and domain that are declared, and the attributes of the domain with the
    declared values in their place. No name means anything in these. -/
structure TypeDeclaration.TranslatesTo (d : TypeDeclaration) (type : VariableType) : Prop where
  name : type.name = d.name
  domain : Domain.ofName? d.base = some type.domain
  attributes : SetFrom (fun _ _ => False) (VariableType.builtin type.domain).attribute? d.attributes
    type.attributes

/-- What the parameters of a function mean in its outputs. -/
def FunctionDeclaration.Means (d : FunctionDeclaration) (f : ModelFunction) (param : String)
    (input : Expr) : Prop :=
  (param, input) ∈ d.params.zip f.inputs

/-- The function has a symbol for every parameter, and outputs in which the parameters mean these. -/
structure FunctionDeclaration.TranslatesTo (d : FunctionDeclaration) (f : ModelFunction) : Prop where
  name : f.name = d.name
  inputs : List.Forall₂ (fun param input => ∃ id, input = .symbol id param) d.params f.inputs
  outputs : List.Forall₂ (Expression.TranslatesTo (d.Means f)) d.outputs f.outputs

/-- The sides of the equation say what is written on either side. -/
structure Equation.TranslatesTo (means : String → Expr → Prop) (eq : Equation)
    (built : FlatDae.Equation) : Prop where
  lhs : eq.lhs.TranslatesTo means built.lhs
  rhs : eq.rhs.TranslatesTo means built.rhs

/-- Of elements with different keys the one with a given key is found. -/
theorem find?_eq_some_of_nodup {α κ : Type} [DecidableEq κ] (key : α → κ) {as : List α}
    (h : (as.map key).Nodup) {a : α} (ha : a ∈ as) : as.find? (key · = key a) = some a := by
  have hsome : (as.find? (key · = key a)).isSome = true := List.find?_isSome.2 ⟨a, ha, by simp⟩
  obtain ⟨b, hb⟩ := Option.isSome_iff_exists.1 hsome
  have hkey : key b = key a := by simpa using List.find?_some hb
  rw [hb, List.inj_on_of_nodup_map h (List.mem_of_find?_eq_some hb) ha hkey]

namespace FunctionDeclaration.TranslatesTo

variable {d : FunctionDeclaration} {f : ModelFunction} (h : d.TranslatesTo f)
include h

/-- The inputs are called like the parameters. -/
theorem print_inputs : f.inputs.map Expr.print = d.params := by
  have hinputs := h.inputs
  generalize f.inputs = inputs at hinputs
  generalize d.params = params at hinputs
  induction hinputs with
  | nil => rfl
  | cons hinput _ ih =>
      obtain ⟨id, rfl⟩ := hinput
      rw [List.map_cons, ih, Expr.print_symbol]

/-- Of parameters with different names no two inputs are called the same. -/
theorem input_unique (hparams : d.params.Nodup) {input input' : Expr} (hinput : input ∈ f.inputs)
    (hinput' : input' ∈ f.inputs) (hname : input.print = input'.print) : input = input' :=
  List.inj_on_of_nodup_map (h.print_inputs ▸ hparams) hinput hinput' hname

/-- A parameter means the input that is called like it. -/
theorem means_iff {param : String} {input : Expr} :
    d.Means f param input ↔ input ∈ f.inputs ∧ input.print = param := by
  have hzip : d.params.zip f.inputs = f.inputs.map fun input => (input.print, input) := by
    rw [← h.print_inputs]
    conv_lhs => rw [← List.map_id f.inputs, List.map_map, List.zip_map']
    rfl
  rw [FunctionDeclaration.Means, hzip, List.mem_map]
  constructor
  · rintro ⟨input', hinput, heq⟩
    obtain ⟨rfl, rfl⟩ := Prod.mk.inj heq
    exact ⟨hinput, rfl⟩
  · rintro ⟨hinput, rfl⟩
    exact ⟨input, hinput, rfl⟩

end FunctionDeclaration.TranslatesTo

end Source

/-- The expressions among the attributes are nodes of the graph. -/
def Attributes.DrawnFrom (g : Graph) (attributes : Attributes) : Prop :=
  ∀ (name : String) (x : Expr), attributes[name]? = some (Attribute.expr x) → x ∈ g

theorem Attributes.DrawnFrom.mono {g g' : Graph} {attributes : Attributes}
    (h : Attributes.DrawnFrom g attributes) (hle : g ≤ g') : Attributes.DrawnFrom g' attributes :=
  fun name x hx => hle x (h name x hx)

/-- Values drawn from the graph may be stored. -/
theorem Attributes.DrawnFrom.storeAll {g : Graph} {attributes : Attributes}
    (h : Attributes.DrawnFrom g attributes) {values : List (String × Attribute)}
    (hvalues : ∀ value ∈ values, ∀ x, value.2 = .expr x → x ∈ g) :
    Attributes.DrawnFrom g (Source.storeAll attributes values) := by
  intro name x hx
  rcases Source.mem_of_storeAll hx with hold | hmem
  · exact h name x hold
  · exact hvalues _ hmem x rfl

/-- The defaults of built-in types are shared constants. -/
theorem builtin_drawnFrom (domain : Domain) :
    Attributes.DrawnFrom Graph.shared (VariableType.builtin domain).attributes := by
  intro name x hx
  have hmem : (name, Attribute.expr x) ∈ VariableType.defaultAttributes domain :=
    Source.mem_of_ofList hx
  have hshared : x = .zero ∨ x = .one ∨ x = .infinity ∨ x = .negInfinity := by
    cases domain <;> simp [VariableType.defaultAttributes] at hmem <;> grind
  exact hshared

namespace Elaboration

open Source (settingExpressions TypeDeclaration FunctionDeclaration Component)

/-! ### Models without variables -/

/-- The parts of a model beside its variables. -/
structure Outline where
  time : Expr
  types : TypeRegistry := {}
  functions : FunctionTable := ∅
  initialEquations : Array Equation := #[]
  daeEquations : Array Equation := #[]

/-- The derivative relations that the equations state. -/
def Outline.relations (o : Outline) : Array DerivativeRelation :=
  (o.initialEquations ++ o.daeEquations).filterMap DerivativeRelation.ofEquation?

/-- The model of these parts, without variables. -/
def Outline.model (o : Outline) (supply : Supply) : Model where
  supply := supply
  time := some o.time
  types := o.types
  functions := o.functions
  initialEquations := o.initialEquations
  daeEquations := o.daeEquations
  relations := o.relations

/-- The model consists of the parts, and no operation on the way to it changed a kind. -/
structure Outlined (o : Outline) (m : Model) : Prop where
  eq : m = o.model m.supply
  reached : ∃ ops, m.ReachedBy ops

namespace Outlined

variable {o o' : Outline} {m : Model} (h : Outlined o m)
include h

/-- One more operation that adds to the parts. -/
theorem step (op : Operation) (hvalid : op.Valid m) (hop : op.registers? = none)
    (heq : op.run m = o'.model (op.run m).supply) : Outlined o' (op.run m) := by
  refine ⟨heq, ?_⟩
  obtain ⟨ops, hops⟩ := h.reached
  have hnone : m.registered = #[] := by
    rw [h.eq]
    rfl
  refine ⟨_, hops.step op hvalid (Operation.keepsKinds_of_empty hnone hop) ?_⟩
  rw [heq, hnone, hop]
  rfl

theorem supplied (supply : Supply) : Outlined o { m with supply } :=
  h.step (.makeNodes supply) trivial rfl (by rw [h.eq]; rfl)

theorem setFunction (f : ModelFunction) :
    Outlined { o with functions := o.functions.insert f.name f } (m.setFunction f) :=
  h.step (.setFunction f) trivial rfl (by rw [h.eq]; rfl)

theorem addType {type : VariableType} (hadd : o.types.add type = .ok (o.types.store type)) :
    ∃ m', (Model.addType type).run m = .ok () m' ∧ m'.supply = m.supply ∧
      Outlined { o with types := o.types.store type } m' := by
  have htypes : m.types = o.types := by
    rw [h.eq]
    rfl
  have hrun : (Model.addType type).run m = .ok () { m with types := o.types.store type } := by
    rw [Model.addType_run, htypes, hadd]
  have hafter : (Operation.addType type).run m = { m with types := o.types.store type } := by
    change (Model.addType type).after m = _
    rw [Action.after, hrun]
  refine ⟨_, hrun, rfl, hafter ▸ h.step (.addType type) trivial rfl ?_⟩
  rw [hafter, h.eq]
  rfl

/-- Initial equations come before the others. -/
theorem addInitialEquation (hdae : o.daeEquations = #[]) (eq : Equation) :
    Outlined { o with initialEquations := o.initialEquations.push eq } (m.addInitialEquation eq) := by
  apply h.step (.addInitialEquation eq) trivial rfl
  rw [h.eq]
  unfold Operation.run Model.addInitialEquation Model.learnRelation Outline.model Outline.relations
  simp only [hdae, Array.append_empty]
  cases hrelation : DerivativeRelation.ofEquation? eq with
  | none => simp [hrelation]
  | some relation => simp [hrelation]

theorem addDaeEquation (eq : Equation) :
    Outlined { o with daeEquations := o.daeEquations.push eq } (m.addDaeEquation eq) := by
  apply h.step (.addDaeEquation eq) trivial rfl
  rw [h.eq]
  unfold Operation.run Model.addDaeEquation Model.learnRelation Outline.model Outline.relations
  cases hrelation : DerivativeRelation.ofEquation? eq with
  | none => simp [hrelation]
  | some relation => simp [hrelation]

end Outlined

/-! ### Types -/

/-- The registry has the types that the declarations become and no other. -/
structure TypesOf (ds : List TypeDeclaration) (g : Graph) (types : TypeRegistry) : Prop
    extends OnlyTypes (ds.map (·.name)) types where
  translates : ∀ name type, types.get? name = some type →
    ∃ d ∈ ds, d.name = name ∧ d.TranslatesTo type
  drawnFrom : ∀ name type, types.get? name = some type → Attributes.DrawnFrom g type.attributes

theorem typesOf_nil (g : Graph) : TypesOf [] g {} where
  toOnlyTypes := onlyTypes_empty
  translates := fun name type hfound => by simp [TypeRegistry.get?] at hfound
  drawnFrom := fun name type hfound => by simp [TypeRegistry.get?] at hfound

theorem TypesOf.mono {ds : List TypeDeclaration} {g g' : Graph} {types : TypeRegistry}
    (h : TypesOf ds g types) (hle : g ≤ g') : TypesOf ds g' types :=
  { h with drawnFrom := fun name type htype => (h.drawnFrom name type htype).mono hle }

/-- The type of a declaration with given values for attributes. -/
def typeWith (d : TypeDeclaration) (domain : Domain) (values : List (String × Attribute)) (id : TypeId) :
    VariableType where
  id := id
  name := d.name
  domain := domain
  attributes := Source.storeAll (VariableType.builtin domain).attributes values

/-- Setting attributes of a type stores them. -/
theorem foldl_withAttribute_type_eq (values : List (String × Attribute)) (type : VariableType) :
    values.foldl (fun type (name, value) => type.withAttribute name value) type =
      { type with attributes := Source.storeAll type.attributes values } := by
  induction values generalizing type with
  | nil => rfl
  | cons value values ih => exact ih (type.withAttribute value.1 value.2)

/-- Defaults and values set in a new type give the type with these values. -/
theorem foldl_withAttribute_new (d : TypeDeclaration) (domain : Domain)
    (values : List (String × Attribute)) (id : TypeId) :
    (VariableType.defaultAttributes domain ++ values).foldl
      (fun type (name, value) => type.withAttribute name value)
      { id, name := d.name, domain } = typeWith d domain values id := by
  rw [List.foldl_append, foldl_withAttribute_type_eq, foldl_withAttribute_type_eq,
    ← Source.ofList_eq_storeAll]
  rfl

/-- The type with the values that are declared is what the declaration says. -/
theorem translatesTo_typeWith {d : TypeDeclaration} {domain : Domain} {g : Graph}
    (hshared : Graph.shared ≤ g) (hbase : Domain.ofName? d.base = some domain)
    {values : List (String × Attribute)}
    (hvalues : TranslatedSettings (.type d.name) d.attributes g values) (id : TypeId) :
    d.TranslatesTo (typeWith d domain values id) ∧
      Attributes.DrawnFrom g (typeWith d domain values id).attributes := by
  have hmeans : (Scope.type d.name).Means = fun _ _ => False := by
    funext name symbol
    simp [Scope.Means, Scope.find?]
  refine ⟨⟨rfl, hbase, hmeans ▸ Source.setFrom_storeAll hvalues.translates _⟩, ?_⟩
  exact ((builtin_drawnFrom domain).mono hshared).storeAll hvalues.drawnFrom

/-- One more type. -/
theorem TypesOf.store {ds : List TypeDeclaration} {g g' : Graph} {types : TypeRegistry}
    (h : TypesOf ds g types) (hle : g ≤ g') {d : TypeDeclaration} {type : VariableType}
    (htype : d.TranslatesTo type) (hdrawn : Attributes.DrawnFrom g' type.attributes)
    (hbuiltin : ∀ domain, Domain.ofName? type.name = some domain → type.domain = domain) :
    TypesOf (ds ++ [d]) g' (types.store type) where
  toOnlyTypes := by
    rw [List.map_append, List.map_singleton, ← htype.name]
    exact h.toOnlyTypes.store hbuiltin
  translates := by
    intro name type' hfound
    rw [TypeRegistry.get?_store] at hfound
    split at hfound
    · rename_i hname
      obtain rfl := Option.some.inj hfound
      exact ⟨d, List.mem_append_right _ List.mem_cons_self, htype.name.symm.trans hname, htype⟩
    · obtain ⟨d', hd', hd⟩ := h.translates name type' hfound
      exact ⟨d', List.mem_append_left _ hd', hd⟩
  drawnFrom := by
    intro name type' hfound
    rw [TypeRegistry.get?_store] at hfound
    split at hfound
    · obtain rfl := Option.some.inj hfound
      exact hdrawn
    · exact (h.drawnFrom name type' hfound).mono hle

/-- A type whose name says no other domain may be added. -/
theorem checkBuiltinName_of_fits {type : VariableType}
    (h : ∀ domain, Domain.ofName? type.name = some domain → type.domain = domain) :
    TypeRegistry.checkBuiltinName type = .ok () := by
  unfold TypeRegistry.checkBuiltinName
  cases hname : Domain.ofName? type.name with
  | none => rfl
  | some domain => simp [h domain hname]

/-- The model has the types that are declared and nothing but the time variable besides. -/
def Typing (time : Expr) (ds : List TypeDeclaration) (g : Graph) (m : Model) : Prop :=
  ∃ types, Outlined { time, types } m ∧ TypesOf ds g types

/-- A declared type becomes one of the model. -/
theorem buildType_translates {time : Expr} {d : TypeDeclaration} {done : List TypeDeclaration}
    {g : Graph} (hshared : Graph.shared ≤ g) (hd : d.WellFormed) (hnew : d.name ∉ done.map (·.name)) :
    Assembles g (Typing time done g) (buildType d) fun g' _ => Typing time (done ++ [d]) g' := by
  have hsupply (m : Model) (supply : Supply) (hm : Typing time done g m) :
      Typing time done g { m with supply } := by
    obtain ⟨types, ho, htypes⟩ := hm
    exact ⟨types, ho.supplied supply, htypes⟩
  unfold buildType
  obtain ⟨domain, hbase⟩ := Option.isSome_iff_exists.1 hd.base
  rw [hbase]
  have hscope : (Scope.type d.name).DrawnFrom g := fun name symbol hmeans => nomatch hmeans
  apply Assembles.elaborating_bind hsupply (elaborateAttributes_translates hscope fun e he =>
    wellFormed_type_iff.2 (hd.attributes e he))
  intro g₁ values hle₁ hvalues
  have hnewType : Makes g₁ (make (VariableType.new d.name domain)) fun _ type =>
      ∃ id, type = { id, name := d.name, domain } := by
    apply Makes.make
    exact fun supply hbelow _ =>
      ⟨g₁, le_refl g₁, fun n hn => Nat.lt_succ_of_lt (hbelow n hn), supply.next, rfl⟩
  apply Assembles.elaborating_bind hsupply hnewType
  rintro g₂ _ hle₂ ⟨id, rfl⟩
  obtain ⟨htype, hdrawn⟩ := translatesTo_typeWith (le_trans hshared hle₁) hbase hvalues id
  rw [foldl_withAttribute_new]
  have hadded : Assembles g₂ (Typing time done g)
      (attempt d.start (Model.addType (typeWith d domain values id)))
      fun g' succeeded m => succeeded = true ∧ Typing time (done ++ [d]) g' m := by
    apply Assembles.attempt
    rintro m ⟨types, ho, htypes⟩
    have hbuiltin (domain' : Domain) (hdomain' : Domain.ofName? d.name = some domain') :
        domain = domain' :=
      Option.some.inj (hbase.symm.trans (hd.builtinName domain' hdomain'))
    have hfree : types.get? (typeWith d domain values id).name = none := by
      rw [← Option.not_isSome_iff_eq_none]
      exact mt (htypes.found d.name).1 hnew
    have hadd := TypeRegistry.add_eq_ok_iff.2 ⟨checkBuiltinName_of_fits hbuiltin, hfree, rfl⟩
    obtain ⟨m', hrun, hsupply', ho'⟩ := ho.addType hadd
    refine ⟨m', hrun, hsupply', _, ho', ?_⟩
    exact htypes.store (le_trans hle₁ hle₂) htype (hdrawn.mono hle₂) hbuiltin
  exact (Grows.discard hadded).weaken (fun _ hs => hs) fun _ _ _ _ ⟨_, hs⟩ => hs.2

/-- In a list of declarations with different names a name is new after those before it. -/
theorem name_notMem_of_nodup {α : Type} {name : α → String} {all done rest : List α} {a : α}
    (hnodup : (all.map name).Nodup) (hall : all = done ++ a :: rest) : name a ∉ done.map name := by
  rw [hall, List.map_append, List.nodup_append] at hnodup
  exact fun hmem => hnodup.2.2 (name a) hmem (name a) List.mem_cons_self rfl

/-- The declared types become those of the model. -/
theorem buildTypes_translates {time : Expr} {ds : List TypeDeclaration} {g : Graph}
    (hshared : Graph.shared ≤ g) (hds : ∀ d ∈ ds, d.WellFormed) (hnames : (ds.map (·.name)).Nodup) :
    Assembles g (Typing time [] g) (ds.forM buildType) fun g' _ => Typing time ds g' := by
  apply Grows.forM (I := fun done g (draft : Draft) => Typing time done g draft.model)
  intro g' done rest d hall hle
  have hd : d ∈ ds := hall ▸ List.mem_append_right _ List.mem_cons_self
  exact buildType_translates (le_trans hshared hle) (hds d hd) (name_notMem_of_nodup hnames hall)

/-! ### Functions -/

/-- The table has the functions that the declarations become and no other, and no node is an input of
    two of them. -/
structure FunctionsOf (time : Expr) (ds : List FunctionDeclaration) (g : Graph)
    (functions : FunctionTable) : Prop where
  found : ∀ d ∈ ds, (functions[d.name]?).isSome = true
  translates : ∀ (name : String) (f : ModelFunction), functions[name]? = some f →
    ∃ d ∈ ds, d.name = name ∧ d.TranslatesTo f
  inputs : ∀ (name : String) (f : ModelFunction), functions[name]? = some f →
    ∀ input ∈ f.inputs, input ∈ g ∧ input ≠ time
  outputs : functions.DrawnFrom g
  apart : ∀ (name name' : String) (f f' : ModelFunction), functions[name]? = some f →
    functions[name']? = some f' → ∀ input ∈ f.inputs, input ∈ f'.inputs → name = name'

theorem functionsOf_nil (time : Expr) (g : Graph) : FunctionsOf time [] g ∅ where
  found := fun d hd => absurd hd List.not_mem_nil
  translates := fun name f hf => by simp at hf
  inputs := fun name f hf => by simp at hf
  outputs := fun name f hf => by simp at hf
  apart := fun name name' f f' hf => by simp at hf

theorem FunctionsOf.mono {time : Expr} {ds : List FunctionDeclaration} {g g' : Graph}
    {functions : FunctionTable} (h : FunctionsOf time ds g functions) (hle : g ≤ g') :
    FunctionsOf time ds g' functions :=
  { h with
    inputs := fun name f hf input hinput => (h.inputs name f hf input hinput).imp_left (hle input)
    outputs := fun name f hf output houtput => hle output (h.outputs name f hf output houtput) }

/-- One more function, whose inputs are new. -/
theorem FunctionsOf.insert {time : Expr} {ds : List FunctionDeclaration} {g g' : Graph}
    {functions : FunctionTable} (h : FunctionsOf time ds g functions) (hle : g ≤ g') (htime : time ∈ g)
    {d : FunctionDeclaration} {f : ModelFunction} (hf : d.TranslatesTo f)
    (hinputs : ∀ input ∈ f.inputs, input ∈ g' ∧ input ∉ g) (houtputs : ∀ output ∈ f.outputs, output ∈ g') :
    FunctionsOf time (ds ++ [d]) g' (functions.insert f.name f) := by
  have hlookup {name : String} {f' : ModelFunction}
      (hfound : (functions.insert f.name f)[name]? = some f') :
      name = f.name ∧ f' = f ∨ functions[name]? = some f' := by
    rw [Std.TreeMap.getElem?_insert] at hfound
    split at hfound
    · rename_i hname
      exact Or.inl ⟨(Std.LawfulEqCmp.eq_of_compare hname).symm, (Option.some.inj hfound).symm⟩
    · exact Or.inr hfound
  constructor
  · intro d' hd'
    rw [Std.TreeMap.getElem?_insert]
    split
    · rfl
    · rename_i hname
      rcases List.mem_append.1 hd' with hold | hself
      · exact h.found d' hold
      · obtain rfl := List.mem_singleton.1 hself
        exact absurd (by rw [hf.name]; exact Std.ReflCmp.compare_self) hname
  · intro name f' hfound
    rcases hlookup hfound with ⟨rfl, rfl⟩ | hold
    · exact ⟨d, List.mem_append_right _ List.mem_cons_self, hf.name.symm, hf⟩
    · obtain ⟨d', hd', hd⟩ := h.translates name f' hold
      exact ⟨d', List.mem_append_left _ hd', hd⟩
  · intro name f' hfound input hinput
    rcases hlookup hfound with ⟨rfl, rfl⟩ | hold
    · exact ⟨(hinputs input hinput).1, fun heq => (hinputs input hinput).2 (heq ▸ htime)⟩
    · obtain ⟨hmem, hne⟩ := h.inputs name f' hold input hinput
      exact ⟨hle input hmem, hne⟩
  · intro name f' hfound output houtput
    rcases hlookup hfound with ⟨rfl, rfl⟩ | hold
    · exact houtputs output houtput
    · exact hle output (h.outputs name f' hold output houtput)
  · intro name name' f₁ f₂ hf₁ hf₂ input hinput hinput'
    rcases hlookup hf₁ with ⟨rfl, rfl⟩ | hold₁ <;> rcases hlookup hf₂ with ⟨rfl, rfl⟩ | hold₂
    · rfl
    · exact absurd (h.inputs name' f₂ hold₂ input hinput').1 (hinputs input hinput).2
    · exact absurd (h.inputs name f₁ hold₁ input hinput).1 (hinputs input hinput').2
    · exact h.apart name name' f₁ f₂ hold₁ hold₂ input hinput hinput'

/-- The model has the functions that are declared, beside the types and the time variable. -/
def Functioning (time : Expr) (types : TypeRegistry) (ds : List FunctionDeclaration) (g : Graph)
    (m : Model) : Prop :=
  ∃ functions, Outlined { time, types, functions } m ∧ FunctionsOf time ds g functions

/-- New symbols are nodes that were not there. -/
theorem newSymbols_makes (names : List String) (g : Graph) :
    Makes g (newSymbols names) fun g' symbols =>
      List.Forall₂ (fun name symbol => ∃ id, symbol = .symbol id name) names symbols ∧
      ∀ symbol ∈ symbols, symbol ∈ g' ∧ symbol ∉ g := by
  induction names generalizing g with
  | nil =>
      rw [newSymbols]
      exact Makes.pure ⟨.nil, fun _ hsymbol => absurd hsymbol List.not_mem_nil⟩
  | cons name names ih =>
      rw [newSymbols]
      apply Makes.bind (Makes.symbol name)
      rintro g₁ _ hle₁ ⟨⟨id, rfl⟩, hmem, hnew⟩
      apply Makes.bind (ih g₁)
      rintro g₂ symbols hle₂ ⟨hsymbols, hrest⟩
      refine Makes.pure ⟨.cons ⟨id, rfl⟩ hsymbols, List.forall_mem_cons.2 ⟨⟨hle₂ _ hmem, hnew⟩, ?_⟩⟩
      exact fun symbol hsymbol =>
        ⟨(hrest symbol hsymbol).1, fun hold => (hrest symbol hsymbol).2 (hle₁ symbol hold)⟩

/-- A declared function becomes one of the model. -/
theorem buildFunction_translates {signatures : Signatures} {time : Expr} {types : TypeRegistry}
    {d : FunctionDeclaration} {done : List FunctionDeclaration} {g : Graph} (htime : time ∈ g)
    (hd : d.WellFormed signatures.Declares) :
    Assembles g (Functioning time types done g) (buildFunction signatures d)
      fun g' _ => Functioning time types (done ++ [d]) g' := by
  have hsupply (m : Model) (supply : Supply) (hm : Functioning time types done g m) :
      Functioning time types done g { m with supply } := by
    obtain ⟨functions, ho, hfunctions⟩ := hm
    exact ⟨functions, ho.supplied supply, hfunctions⟩
  unfold buildFunction
  rw [if_neg (by simp [← (eraseDups_length_eq_iff d.params).2 hd.params])]
  apply Assembles.elaborating_bind hsupply (Makes.make (newSymbols_makes d.params g))
  rintro g₁ inputs hle₁ ⟨hinputs, hnew⟩
  let scope := Scope.function d.name (Std.TreeMap.ofList (d.params.zip inputs))
  have hmeans (name : String) (symbol : Expr) (hname : scope.Means name symbol) :
      (name, symbol) ∈ d.params.zip inputs := Source.mem_of_ofList hname
  have hscope : scope.DrawnFrom g₁ := fun name symbol hname =>
    (hnew symbol (List.of_mem_zip (hmeans name symbol hname)).2).1
  have houtputs : ∀ e ∈ d.outputs, e.WellFormed signatures.Declares scope.Known := by
    simp only [scope, known_function hinputs.length_eq.symm]
    exact hd.outputs
  apply Assembles.elaborating_bind hsupply (elaborateInTurn_translates hscope houtputs)
  rintro g₂ _ hle₂ ⟨outputs, rfl, hdrawn, htranslates⟩
  apply Assembles.modifyModel fun _ _ => rfl
  rintro m ⟨functions, ho, hfunctions⟩
  refine ⟨_, ho.setFunction { name := d.name, inputs, outputs }, ?_⟩
  apply hfunctions.insert (le_trans hle₁ hle₂) htime
  · exact ⟨rfl, hinputs, htranslates.imp fun _ _ he => he.mono hmeans⟩
  · exact fun input hinput => ⟨hle₂ input (hnew input hinput).1, (hnew input hinput).2⟩
  · exact hdrawn

/-- The declared functions become those of the model. -/
theorem buildFunctions_translates {signatures : Signatures} {time : Expr} {types : TypeRegistry}
    {ds : List FunctionDeclaration} {g : Graph} (htime : time ∈ g)
    (hds : ∀ d ∈ ds, d.WellFormed signatures.Declares) :
    Assembles g (Functioning time types [] g) (ds.forM (buildFunction signatures))
      fun g' _ => Functioning time types ds g' := by
  apply Grows.forM (I := fun done g (draft : Draft) => Functioning time types done g draft.model)
  intro g' done rest d hall hle
  exact buildFunction_translates (hle time htime)
    (hds d (hall ▸ List.mem_append_right _ List.mem_cons_self))

/-- The signatures of functions with different names are collected without a change of the model. -/
theorem signaturesOf_collects {I : Model → Prop} {g : Graph} (ds done : List FunctionDeclaration)
    (signatures : Signatures) (hdone : signatures.Are done)
    (hnew : NewNames (done.map (·.name)) (ds.map (·.name))) :
    Assembles g I (signaturesOf ds signatures) fun _ found m => found.Are (done ++ ds) ∧ I m := by
  induction ds generalizing done signatures with
  | nil =>
      rw [signaturesOf, List.append_nil]
      exact Grows.pure fun _ hs => ⟨hdone, hs⟩
  | cons d ds ih =>
      obtain ⟨hname, hrest⟩ := newNames_cons_iff.1 hnew
      rw [signaturesOf, if_neg (mt (hdone.contains_iff d.name).1 hname), List.append_cons]
      apply ih _ _ (hdone.insert hname)
      rwa [List.map_append]

/-! ### Names of components -/

/-- The time variable and the components have symbols of their own. Those of the components were no
    nodes before they were given, so no function has them as inputs. -/
structure SymbolsOf (time : Expr) (names : List String) (before g : Graph) (symbols : Symbols) :
    Prop extends SymbolsAre names symbols where
  time : symbols[timeName]? = some time
  symbol : ∀ (name : String) (symbol : Expr), symbols[name]? = some symbol →
    ∃ id, symbol = .symbol id name
  drawnFrom : ∀ (name : String) (symbol : Expr), symbols[name]? = some symbol → symbol ∈ g
  new : ∀ (name : String) (symbol : Expr), symbols[name]? = some symbol → name ≠ timeName →
    symbol ∉ before

theorem SymbolsOf.mono {time : Expr} {names : List String} {before g g' : Graph} {symbols : Symbols}
    (h : SymbolsOf time names before g symbols) (hle : g ≤ g') :
    SymbolsOf time names before g' symbols :=
  { h with drawnFrom := fun name symbol hfound => hle symbol (h.drawnFrom name symbol hfound) }

theorem symbolsOf_time {id : NodeId} {g : Graph} (hmem : .symbol id timeName ∈ g) :
    SymbolsOf (.symbol id timeName) [timeName] g g
      ((∅ : Symbols).insert timeName (.symbol id timeName)) := by
  have hlookup {name : String} {symbol : Expr}
      (hfound : ((∅ : Symbols).insert timeName (.symbol id timeName))[name]? = some symbol) :
      name = timeName ∧ symbol = .symbol id timeName := by
    rw [Std.TreeMap.getElem?_insert] at hfound
    split at hfound
    · rename_i hname
      exact ⟨(Std.LawfulEqCmp.eq_of_compare hname).symm, (Option.some.inj hfound).symm⟩
    · simp at hfound
  refine ⟨symbolsAre_empty.insert (Expr.print_symbol _ _), Std.TreeMap.getElem?_insert_self, ?_, ?_, ?_⟩
  · intro name symbol hfound
    obtain ⟨rfl, rfl⟩ := hlookup hfound
    exact ⟨id, rfl⟩
  · intro name symbol hfound
    obtain ⟨-, rfl⟩ := hlookup hfound
    exact hmem
  · intro name symbol hfound hname
    exact absurd (hlookup hfound).1 hname

/-- One more component. -/
theorem SymbolsOf.insert {time : Expr} {names : List String} {before g g' : Graph} {symbols : Symbols}
    (h : SymbolsOf time names before g symbols) (hle : g ≤ g') (hbefore : before ≤ g) {name : String}
    {id : NodeId} (hname : name ≠ timeName) (hmem : .symbol id name ∈ g')
    (hnew : .symbol id name ∉ g) :
    SymbolsOf time (names ++ [name]) before g' (symbols.insert name (.symbol id name)) := by
  have hlookup {other : String} {symbol : Expr}
      (hfound : (symbols.insert name (.symbol id name))[other]? = some symbol) :
      other = name ∧ symbol = .symbol id name ∨ symbols[other]? = some symbol := by
    rw [Std.TreeMap.getElem?_insert] at hfound
    split at hfound
    · rename_i heq
      exact Or.inl ⟨(Std.LawfulEqCmp.eq_of_compare heq).symm, (Option.some.inj hfound).symm⟩
    · exact Or.inr hfound
  refine ⟨h.toSymbolsAre.insert (Expr.print_symbol _ _), ?_, ?_, ?_, ?_⟩
  · rw [Std.TreeMap.getElem?_insert, if_neg fun heq => hname (Std.LawfulEqCmp.eq_of_compare heq)]
    exact h.time
  · intro other symbol hfound
    rcases hlookup hfound with ⟨rfl, rfl⟩ | hold
    · exact ⟨id, rfl⟩
    · exact h.symbol other symbol hold
  · intro other symbol hfound
    rcases hlookup hfound with ⟨rfl, rfl⟩ | hold
    · exact hmem
    · exact hle symbol (h.drawnFrom other symbol hold)
  · intro other symbol hfound hother
    rcases hlookup hfound with ⟨rfl, rfl⟩ | hold
    · exact fun hold => hnew (hbefore _ hold)
    · exact h.new other symbol hold hother

/-- Components with new names are given their symbols. -/
theorem symbolsOf_translates {o : Outline} {time : Expr} {before : Graph} (cs : List Component)
    {taken : List String} {g : Graph} {symbols : Symbols} (hbefore : before ≤ g)
    (h : SymbolsOf time taken before g symbols) (hnew : NewNames taken (cs.map (·.name))) :
    Assembles g (Outlined o) (symbolsOf cs symbols) fun g' found m =>
      SymbolsOf time (taken ++ cs.map (·.name)) before g' found ∧ Outlined o m := by
  induction cs generalizing taken g symbols with
  | nil =>
      rw [symbolsOf, List.map_nil, List.append_nil]
      exact Grows.pure fun _ hs => ⟨h, hs⟩
  | cons c cs ih =>
      obtain ⟨hname, hrest⟩ := newNames_cons_iff.1 hnew
      have htaken : ¬ symbols.contains c.name = true := by
        rwa [← Std.TreeMap.isSome_getElem?_eq_contains, h.found]
      have htime : c.name ≠ timeName := by
        intro heq
        apply htaken
        rw [← Std.TreeMap.isSome_getElem?_eq_contains, heq, h.time]
        rfl
      rw [symbolsOf, if_neg htaken, List.map_cons, List.append_cons]
      apply Assembles.elaborating_bind (fun m supply hm => hm.supplied supply)
        (Makes.make (Makes.symbol c.name))
      rintro g₁ _ hle₁ ⟨⟨id, rfl⟩, hmem, hfresh⟩
      exact ih (le_trans hbefore hle₁) (h.insert hle₁ hbefore htime hmem hfresh) hrest

/-! ### Equations -/

/-- The sides of the equations are nodes of the graph. -/
def SidesIn (g : Graph) (eqs : List Equation) : Prop := ∀ eq ∈ eqs, eq.lhs ∈ g ∧ eq.rhs ∈ g

theorem SidesIn.mono {g g' : Graph} {eqs : List Equation} (h : SidesIn g eqs) (hle : g ≤ g') :
    SidesIn g' eqs := fun eq heq => ⟨hle _ (h eq heq).1, hle _ (h eq heq).2⟩

/-- Well formed equations are built and added in order. -/
theorem buildEquations_translates {signatures : Signatures} {symbols : Symbols}
    (add : Model → Equation → Model) {I : List Equation → Model → Prop}
    (hsupply : ∀ (built : List Equation) (m : Model) (supply : Supply), I built m →
      I built { m with supply })
    (hadd : ∀ (built : List Equation) (m : Model) (eq : Equation), I built m →
      I (built ++ [eq]) (add m eq))
    (hkeep : ∀ (m : Model) (eq : Equation), (add m eq).supply = m.supply)
    (eqs : List Source.Equation)
    (heqs : ∀ eq ∈ eqs, eq.WellFormed signatures.Declares (Scope.model symbols).Known)
    {g : Graph} (hscope : (Scope.model symbols).DrawnFrom g) (built : List Equation) :
    Assembles g (I built) (buildEquations signatures symbols add eqs) fun g' _ m => ∃ more,
      List.Forall₂ (Source.Equation.TranslatesTo (Scope.model symbols).Means) eqs more ∧
      SidesIn g' more ∧ I (built ++ more) m := by
  induction eqs generalizing g built with
  | nil =>
      rw [buildEquations]
      apply Grows.pure
      intro draft hs
      exact ⟨[], .nil, fun _ heq => absurd heq List.not_mem_nil, by rwa [List.append_nil]⟩
  | cons eq eqs ih =>
      obtain ⟨heq, hrest⟩ := List.forall_mem_cons.1 heqs
      rw [buildEquations, buildEquation, bind_assoc]
      apply Assembles.elaborating_bind (hsupply built)
        (elaborateExpression_translates signatures _ eq.lhs g hscope heq.lhs)
      rintro g₁ _ hle₁ ⟨lhs, hlhs, rfl, htranslates⟩
      rw [bind_assoc]
      apply Assembles.elaborating_bind (hsupply built)
        (elaborateExpression_translates signatures _ eq.rhs g₁ (hscope.mono hle₁) heq.rhs)
      rintro g₂ _ hle₂ ⟨rhs, hrhs, rfl, htranslates'⟩
      rw [pure_bind]
      let new : Equation := { lhs, rhs }
      have hadded : Assembles g₂ (I built) (modifyModel fun m => ((), add m new))
          fun _ _ => I (built ++ [new]) :=
        Assembles.modifyModel (fun m _ => hkeep m new) fun m hm => hadd built m new hm
      apply Grows.bind hadded
      intro g₃ _ hle₃
      have hle := le_trans hle₁ (le_trans hle₂ hle₃)
      apply (ih hrest (hscope.mono hle) (built ++ [new])).weaken fun _ hs => hs
      rintro g₄ _ draft hle₄ ⟨more, hmore, hsides, hm⟩
      rw [← List.append_cons] at hm
      refine ⟨_, .cons ⟨htranslates, htranslates'⟩ hmore, List.forall_mem_cons.2 ⟨?_, hsides⟩, hm⟩
      exact ⟨hle₄ _ (hle₃ _ (hle₂ _ hlhs)), hle₄ _ (hle₃ _ hrhs)⟩

end Elaboration

end FlatDae
