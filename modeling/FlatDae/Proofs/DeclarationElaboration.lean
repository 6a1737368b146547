/-
Module: FlatDae.Proofs.DeclarationElaboration
Purpose: What is checked while types, functions, the symbols of components and equations are built. Each
  of these is built if it is well formed, and otherwise reported; what is known afterwards are the types,
  signatures and symbols that the text declares.
Main exports: NewNames, OnlyTypes, Typed, buildTypes_checks, signaturesOf_checks, buildFunction_checks,
  symbolsOf_checks, buildEquations_checks
-/
import FlatDae.Proofs.ExpressionElaboration
import FlatDae.Proofs.TypeAssignment

namespace FlatDae

namespace Elaboration

open Source (settingExpressions TypeDeclaration FunctionDeclaration Component)

/-! ### Names -/

/-- The names differ from each other and from those that are taken. -/
def NewNames (taken names : List String) : Prop := names.Nodup ∧ ∀ name ∈ names, name ∉ taken

theorem newNames_nil (taken : List String) : NewNames taken [] :=
  ⟨List.nodup_nil, fun _ h => absurd h List.not_mem_nil⟩

/-- The first name is new, and the others are once it is taken. -/
theorem newNames_cons_iff {taken names : List String} {name : String} :
    NewNames taken (name :: names) ↔ name ∉ taken ∧ NewNames (taken ++ [name]) names := by
  unfold NewNames
  rw [List.nodup_cons, List.forall_mem_cons]
  constructor
  · rintro ⟨⟨hname, hdistinct⟩, hfree, hothers⟩
    refine ⟨hfree, hdistinct, ?_⟩
    intro other hother htaken
    rcases List.mem_append.1 htaken with hold | hself
    · exact hothers other hother hold
    · exact hname (List.mem_singleton.1 hself ▸ hother)
  · rintro ⟨hfree, hdistinct, hothers⟩
    refine ⟨⟨?_, hdistinct⟩, hfree, ?_⟩
    · exact fun hname => hothers name hname (List.mem_append_right _ List.mem_cons_self)
    · exact fun other hother htaken => hothers other hother (List.mem_append_left _ htaken)

theorem newNames_nil_iff {names : List String} : NewNames [] names ↔ names.Nodup := by
  simp [NewNames]

/-! ### Types -/

/-- The registry has types of the given names and no other, and those named as built-in ones have their
    domains. -/
structure OnlyTypes (names : List String) (types : TypeRegistry) : Prop where
  named : types.Named
  found : ∀ name, (types.get? name).isSome = true ↔ name ∈ names
  builtin : ∀ (domain : Domain) (type : VariableType), types.get? domain.name = some type →
    type.domain = domain

theorem onlyTypes_empty : OnlyTypes [] {} := by
  have hnone (name : String) : ({} : TypeRegistry).get? name = none := by
    simp [TypeRegistry.get?]
  refine ⟨TypeRegistry.named_empty, ?_, ?_⟩
  · intro name
    simp [hnone]
  · intro domain type htype
    rw [hnone] at htype
    cases htype

theorem OnlyTypes.store {names : List String} {types : TypeRegistry} (h : OnlyTypes names types)
    {type : VariableType}
    (hbuiltin : ∀ domain, Domain.ofName? type.name = some domain → type.domain = domain) :
    OnlyTypes (names ++ [type.name]) (types.store type) where
  named := h.named.store type
  found := by
    intro name
    rw [TypeRegistry.get?_store, List.mem_append, List.mem_singleton, ← h.found]
    by_cases hname : type.name = name
    · simp [hname]
    · simp [hname, Ne.symm hname]
  builtin := by
    intro domain type' hfound
    rw [TypeRegistry.get?_store] at hfound
    split at hfound
    · rename_i hname
      rw [← Option.some.inj hfound]
      exact hbuiltin domain (hname ▸ Domain.ofName?_name domain)
    · exact h.builtin domain type' hfound

/-- The model has types of the given names, and no variables. -/
structure Typed (names : List String) (m : Model) : Prop where
  types : OnlyTypes names m.types
  registered : m.registered = #[]
  index : m.names = ∅

theorem Typed.supplied {names : List String} (m : Model) (supply : Supply) (h : Typed names m) :
    Typed names { m with supply } :=
  ⟨h.types, h.registered, h.index⟩

theorem addInitialEquation_typed {names : List String} (m : Model) (eq : Equation)
    (h : Typed names m) : Typed names (m.addInitialEquation eq) := by
  unfold Model.addInitialEquation Model.learnRelation
  split
  · exact ⟨h.types, h.registered, h.index⟩
  · exact ⟨h.types, h.registered, h.index⟩

theorem addDaeEquation_typed {names : List String} (m : Model) (eq : Equation)
    (h : Typed names m) : Typed names (m.addDaeEquation eq) := by
  unfold Model.addDaeEquation Model.learnRelation
  split
  · exact ⟨h.types, h.registered, h.index⟩
  · exact ⟨h.types, h.registered, h.index⟩

/-- Setting attributes leaves name and domain of a type. -/
theorem foldl_withAttribute_type (settings : List (String × Attribute)) (type : VariableType) :
    (settings.foldl (fun type (name, value) => type.withAttribute name value) type).name = type.name ∧
    (settings.foldl (fun type (name, value) => type.withAttribute name value) type).domain =
      type.domain := by
  induction settings generalizing type with
  | nil => exact ⟨rfl, rfl⟩
  | cons setting settings ih => exact ih (type.withAttribute setting.1 setting.2)

/-- In a type no name means anything and no function is declared. -/
theorem wellFormed_type_iff {name : String} {e : Source.Expression} :
    e.WellFormed (Signatures.Declares ∅) (Scope.type name).Known ↔
      e.WellFormed (fun _ _ _ => False) fun _ => False := by
  have hdeclares : Signatures.Declares ∅ = fun _ _ _ => False := by
    funext function inputs outputs
    simp [Signatures.Declares]
  have hknown : (Scope.type name).Known = fun _ => False := by
    funext other
    simp [Scope.Known, Scope.find?]
  rw [hdeclares, hknown]

/-- A type of the given name and domain is added if the name is new. -/
theorem addType_checks {names : List String} (start : Nat) {type : VariableType} :
    Builds (Typed names) (attempt start (Model.addType type))
      ((∀ domain, Domain.ofName? type.name = some domain → type.domain = domain) ∧ type.name ∉ names)
      fun succeeded m => succeeded = true ∧ Typed (names ++ [type.name]) m := by
  apply Builds.attempt
  intro m hm
  have hfree : m.types.get? type.name = none ↔ type.name ∉ names := by
    rw [← hm.types.found, Bool.not_eq_true, Option.isSome_eq_false_iff, Option.isNone_iff_eq_none]
  have hcheck : TypeRegistry.checkBuiltinName type = .ok () ↔
      ∀ domain, Domain.ofName? type.name = some domain → type.domain = domain := by
    unfold TypeRegistry.checkBuiltinName
    cases Domain.ofName? type.name with
    | none => simp
    | some domain =>
        by_cases hdomain : domain = type.domain
        · simp [hdomain]
        · simp [hdomain, Ne.symm hdomain]
  rw [Model.addType_run]
  cases hadd : m.types.add type with
  | ok types =>
      obtain ⟨hbuiltin, hnone, rfl⟩ := TypeRegistry.add_eq_ok_iff.1 hadd
      exact ⟨⟨hcheck.1 hbuiltin, hfree.1 hnone⟩, hm.types.store (hcheck.1 hbuiltin), hm.registered,
        hm.index⟩
  | error error =>
      rintro ⟨hbuiltin, hnew⟩
      rw [TypeRegistry.add_eq_ok_iff.2 ⟨hcheck.2 hbuiltin, hfree.2 hnew, rfl⟩] at hadd
      cases hadd

/-- A declared type is built. -/
theorem buildType_checks (names : List String) (d : TypeDeclaration) :
    Builds (Typed names) (buildType d) (d.WellFormed ∧ d.name ∉ names)
      fun _ => Typed (names ++ [d.name]) := by
  unfold buildType
  cases hbase : Domain.ofName? d.base with
  | none =>
      apply Checks.congr (Builds.fault (Checks.report _ _))
      refine ⟨False.elim, fun hsound => ?_⟩
      have hsome := hsound.1.base
      rw [hbase] at hsome
      cases hsome
  | some domain =>
      have hsound : d.WellFormed ∧ d.name ∉ names ↔
          (∀ e ∈ settingExpressions d.attributes,
            e.WellFormed (Signatures.Declares ∅) (Scope.type d.name).Known) ∧
          (∀ other, Domain.ofName? d.name = some other → domain = other) ∧ d.name ∉ names := by
        simp only [wellFormed_type_iff]
        constructor
        · rintro ⟨hd, hnew⟩
          refine ⟨hd.attributes, fun other hother => ?_, hnew⟩
          exact Option.some.inj (hbase.symm.trans (hd.builtinName other hother))
        · rintro ⟨hattributes, hbuiltin, hnew⟩
          refine ⟨⟨by rw [hbase]; rfl, fun other hother => ?_, hattributes⟩, hnew⟩
          rw [hbase, hbuiltin other hother]
      rw [hsound]
      apply Checks.bind (Builds.elaborating_keeps Typed.supplied
        (elaborateAttributes_checks ∅ (.type d.name) d.attributes))
      intro settings
      have hnew : Checks (fun _ => True) (make (VariableType.new d.name domain)) True
          fun type _ => type.name = d.name ∧ type.domain = domain :=
        Checks.make _ fun _ _ => ⟨rfl, rfl⟩
      apply Checks.after (Builds.elaborating Typed.supplied hnew)
      intro new
      apply Checks.adapt (Checks.discard (addType_checks d.start))
      rintro draft ⟨⟨hname, hdomain⟩, hdraft⟩
      have htype := foldl_withAttribute_type
        (VariableType.defaultAttributes domain ++ settings) new
      rw [hname, hdomain] at htype
      rw [htype.1, htype.2]
      exact ⟨hdraft, Iff.rfl, fun _ draft' hadded => hadded.elim fun _ h => h.2⟩

/-- The declared types are built. -/
theorem buildTypes_checks (names : List String) (ds : List TypeDeclaration) :
    Builds (Typed names) (ds.forM buildType)
      ((∀ d ∈ ds, d.WellFormed) ∧ NewNames names (ds.map (·.name)))
      fun _ => Typed (names ++ ds.map (·.name)) := by
  induction ds generalizing names with
  | nil =>
      have hnil : Builds (Typed names) (Pure.pure () : Building Unit) True
          fun _ => Typed (names ++ []) := by
        rw [List.append_nil]
        exact .pure fun _ hs => hs
      exact hnil.congr ⟨fun _ => ⟨fun d hd => absurd hd List.not_mem_nil, newNames_nil names⟩,
        fun _ => trivial⟩
  | cons d ds ih =>
      have hrest := ih (names ++ [d.name])
      rw [List.append_assoc] at hrest
      apply Checks.congr ((buildType_checks names d).bind fun _ => hrest)
      rw [List.forall_mem_cons, List.map_cons, newNames_cons_iff]
      exact and_and_and_comm

/-! ### Functions -/

/-- The signatures are those of the declared functions. -/
def Signatures.Are (signatures : Signatures) (ds : List FunctionDeclaration) : Prop :=
  ∀ function inputs outputs, signatures.Declares function inputs outputs ↔
    ∃ d ∈ ds, d.name = function ∧ d.params.length = inputs ∧ d.outputs.length = outputs

theorem Signatures.are_nil : Signatures.Are ∅ [] := by
  intro function inputs outputs
  simp [Signatures.Declares]

/-- A name has a signature if a function of that name is declared. -/
theorem Signatures.Are.contains_iff {signatures : Signatures} {ds : List FunctionDeclaration}
    (h : signatures.Are ds) (name : String) :
    signatures.contains name = true ↔ name ∈ ds.map (·.name) := by
  rw [← Std.TreeMap.isSome_getElem?_eq_contains, Option.isSome_iff_exists, List.mem_map]
  constructor
  · rintro ⟨⟨inputs, outputs⟩, hsignature⟩
    obtain ⟨d, hd, hname, -⟩ := (h name inputs outputs).1 hsignature
    exact ⟨d, hd, hname⟩
  · rintro ⟨d, hd, hname⟩
    exact ⟨_, (h name _ _).2 ⟨d, hd, hname, rfl, rfl⟩⟩

/-- One more function of a new name. -/
theorem Signatures.Are.insert {signatures : Signatures} {ds : List FunctionDeclaration}
    (h : signatures.Are ds) {d : FunctionDeclaration} (hnew : d.name ∉ ds.map (·.name)) :
    Signatures.Are (signatures.insert d.name ⟨d.params.length, d.outputs.length⟩) (ds ++ [d]) := by
  intro function inputs outputs
  have hlookup : Signatures.Declares (signatures.insert d.name ⟨d.params.length, d.outputs.length⟩)
      function inputs outputs ↔
      if d.name = function then d.params.length = inputs ∧ d.outputs.length = outputs
      else signatures.Declares function inputs outputs := by
    rw [Signatures.Declares, Std.TreeMap.getElem?_insert, Signatures.Declares]
    by_cases hname : d.name = function
    · simp [hname]
    · simp [hname]
  rw [hlookup]
  simp only [List.mem_append, List.mem_singleton, or_and_right, exists_or, exists_eq_left]
  by_cases hname : d.name = function
  · have hold : ¬ ∃ d' ∈ ds, d'.name = function ∧ d'.params.length = inputs ∧
        d'.outputs.length = outputs := by
      rintro ⟨d', hd', hsame, -⟩
      exact hnew (List.mem_map.2 ⟨d', hd', hsame.trans hname.symm⟩)
    simp [hname, hold]
  · simp [hname, h function inputs outputs]

/-- The signatures of declared functions are collected if their names differ. -/
theorem signaturesOf_checks (names : List String) (ds done : List FunctionDeclaration)
    (signatures : Signatures) :
    Builds (fun m => signatures.Are done ∧ Typed names m) (signaturesOf ds signatures)
      (NewNames (done.map (·.name)) (ds.map (·.name)))
      fun found m => found.Are (done ++ ds) ∧ Typed names m := by
  induction ds generalizing done signatures with
  | nil =>
      rw [signaturesOf]
      apply Checks.congr (.pure fun _ hs => ?_)
      · exact ⟨fun _ => newNames_nil _, fun _ => trivial⟩
      · rw [List.append_nil]
        exact hs
  | cons d ds ih =>
      rw [signaturesOf, List.map_cons, newNames_cons_iff]
      have hrest := ih (done ++ [d]) (signatures.insert d.name ⟨d.params.length, d.outputs.length⟩)
      rw [List.map_append, List.append_assoc] at hrest
      by_cases htaken : signatures.contains d.name = true
      · rw [if_pos htaken]
        apply Builds.fault_of_not (Builds.fault_bind (Checks.report _ _) fun _ => hrest)
        intro m hm
        exact ⟨hm.2, fun hsound => hsound.1 ((hm.1.contains_iff d.name).1 htaken)⟩
      · rw [if_neg htaken]
        apply Checks.adapt hrest
        rintro draft ⟨hsignatures, hdraft⟩
        have hnew := mt (hsignatures.contains_iff d.name).2 htaken
        exact ⟨⟨hsignatures.insert hnew, hdraft⟩, by simp [hnew], fun _ _ h => h⟩

theorem eraseDups_length_le (names : List String) : names.eraseDups.length ≤ names.length := by
  induction hlength : names.length using Nat.strongRecOn generalizing names with
  | ind n ih =>
      cases names with
      | nil => simp
      | cons name names =>
          have hfilter : (names.filter fun other => !other == name).length ≤ names.length :=
            List.length_filter_le _ _
          have hless : (names.filter fun other => !other == name).length < n :=
            Nat.lt_of_le_of_lt hfilter (hlength ▸ Nat.lt_succ_self _)
          rw [List.eraseDups_cons, List.length_cons, ← hlength, List.length_cons]
          exact Nat.succ_le_succ (Nat.le_trans (ih _ hless _ rfl) hfilter)

/-- Nothing is repeated in a list that stays as long as it is without repetitions. -/
theorem eraseDups_length_eq_iff (names : List String) :
    names.length = names.eraseDups.length ↔ names.Nodup := by
  induction names with
  | nil => simp
  | cons name names ih =>
      have hfilter : (names.filter fun other => !other == name).length ≤ names.length :=
        List.length_filter_le _ _
      rw [List.eraseDups_cons, List.length_cons, List.length_cons, List.nodup_cons]
      by_cases hname : name ∈ names
      · have hshorter : (names.filter fun other => !other == name).length < names.length :=
          List.length_filter_lt_length_iff_exists.2 ⟨name, hname, by simp⟩
        have hle := eraseDups_length_le (names.filter fun other => !other == name)
        simp only [hname, not_true_eq_false, false_and, iff_false]
        omega
      · have hall : names.filter (fun other => !other == name) = names := by
          rw [List.filter_eq_self]
          intro other hother
          simpa using fun heq : other = name => hname (heq ▸ hother)
        rw [hall, Nat.succ_inj, ih]
        simp [hname]

theorem newSymbols_length (names : List String) (supply : Supply) :
    ((newSymbols names).run supply).1.length = names.length := by
  induction names generalizing supply with
  | nil => rfl
  | cons name names ih => exact congrArg Nat.succ (ih _)

/-- In a function its inputs are known. -/
theorem known_function {name : String} {params : List String} {inputs : List Expr}
    (hlength : inputs.length = params.length) :
    (Scope.function name (Std.TreeMap.ofList (params.zip inputs))).Known = (· ∈ params) := by
  funext other
  have hkeys : (params.zip inputs).map Prod.fst = params :=
    List.map_fst_zip (Nat.le_of_eq hlength.symm)
  rw [Scope.Known, Scope.find?, Std.TreeMap.isSome_getElem?_eq_contains,
    Std.TreeMap.contains_ofList, hkeys, List.contains_iff_mem]

/-- A declared function is built. -/
theorem buildFunction_checks (names : List String) (signatures : Signatures) (d : FunctionDeclaration) :
    Builds (Typed names) (buildFunction signatures d) (d.WellFormed signatures.Declares)
      fun _ => Typed names := by
  unfold buildFunction
  by_cases hparams : d.params.Nodup
  · have hlength := (eraseDups_length_eq_iff d.params).2 hparams
    rw [if_neg (by simp [← hlength])]
    have hsound : d.WellFormed signatures.Declares ↔
        ∀ e ∈ d.outputs, e.WellFormed signatures.Declares (· ∈ d.params) :=
      ⟨fun hd => hd.outputs, fun houtputs => ⟨hparams, houtputs⟩⟩
    rw [hsound]
    have hmake : Checks (fun _ => True) (make (newSymbols d.params)) True
        fun inputs _ => inputs.length = d.params.length :=
      Checks.make _ fun progress _ => newSymbols_length d.params progress.supply
    apply Checks.after (Builds.elaborating Typed.supplied hmake)
    intro inputs
    let scope := Scope.function d.name (Std.TreeMap.ofList (d.params.zip inputs))
    have hturn : Builds (Typed names)
        (elaborating (elaborateInTurn signatures scope d.outputs))
        (∀ e ∈ d.outputs, e.WellFormed signatures.Declares scope.Known)
        fun built m => built.isSome = true ∧ Typed names m :=
      Builds.elaborating Typed.supplied (elaborateInTurn_checks signatures scope d.outputs)
    have hset (outputs : List Expr) :
        Builds (fun m => (some outputs).isSome = true ∧ Typed names m)
          (modifyModel fun m => ((), m.setFunction { name := d.name, inputs, outputs })) True
          fun _ => Typed names :=
      Builds.modifyModel fun m hm => ⟨hm.2.types, hm.2.registered, hm.2.index⟩
    apply Checks.adapt (hturn.before fun built => ?_)
    · rintro draft ⟨hinputs, hdraft⟩
      refine ⟨hdraft, ?_, fun _ _ h => h⟩
      simp only [scope, known_function hinputs]
    · cases built with
      | none => exact .pure fun _ hs => hs.2
      | some outputs => exact hset outputs
  · have hlength := mt (eraseDups_length_eq_iff d.params).1 hparams
    rw [if_pos (by simpa using hlength)]
    apply Checks.congr (Builds.fault (Checks.report _ _))
    exact ⟨False.elim, fun hd => hparams hd.params⟩

/-! ### Components and equations -/

/-- The symbols are those of the names, and are written as these. -/
structure SymbolsAre (names : List String) (symbols : Symbols) : Prop where
  found : ∀ name, (symbols[name]?).isSome = true ↔ name ∈ names
  print : ∀ (name : String) (symbol : Expr), symbols[name]? = some symbol → symbol.print = name

theorem symbolsAre_empty : SymbolsAre [] ∅ := by
  constructor
  · intro name
    simp
  · intro name symbol hfound
    simp at hfound

theorem SymbolsAre.insert {names : List String} {symbols : Symbols} (h : SymbolsAre names symbols)
    {name : String} {symbol : Expr} (hprint : symbol.print = name) :
    SymbolsAre (names ++ [name]) (symbols.insert name symbol) where
  found := by
    intro other
    rw [Std.TreeMap.getElem?_insert, List.mem_append, List.mem_singleton, ← h.found]
    by_cases hname : name = other
    · simp [hname]
    · simp [hname, Ne.symm hname]
  print := by
    intro other symbol' hfound
    rw [Std.TreeMap.getElem?_insert] at hfound
    by_cases hname : name = other
    · simp only [hname, Std.ReflCmp.compare_self, if_true, Option.some.injEq] at hfound
      rw [← hfound, hprint, hname]
    · simp only [Std.LawfulEqCmp.compare_eq_iff_eq, hname, if_false] at hfound
      exact h.print other symbol' hfound

/-- The components are given symbols if their names are new. -/
theorem symbolsOf_checks (names : List String) (cs : List Component) (taken : List String)
    (symbols : Symbols) :
    Builds (fun m => SymbolsAre taken symbols ∧ Typed names m) (symbolsOf cs symbols)
      (NewNames taken (cs.map (·.name)))
      fun found m => SymbolsAre (taken ++ cs.map (·.name)) found ∧ Typed names m := by
  induction cs generalizing taken symbols with
  | nil =>
      rw [symbolsOf]
      apply Checks.congr (.pure fun _ hs => ?_)
      · exact ⟨fun _ => newNames_nil _, fun _ => trivial⟩
      · rw [List.map_nil, List.append_nil]
        exact hs
  | cons c cs ih =>
      rw [symbolsOf, List.map_cons, newNames_cons_iff]
      have hcontains {taken : List String} (hsymbols : SymbolsAre taken symbols) :
          symbols.contains c.name = true ↔ c.name ∈ taken := by
        rw [← Std.TreeMap.isSome_getElem?_eq_contains, hsymbols.found]
      by_cases htaken : symbols.contains c.name = true
      · rw [if_pos htaken]
        apply Builds.fault_of_not (Builds.fault_bind (Checks.report _ _) fun _ => ih taken symbols)
        intro m hm
        exact ⟨hm.2, fun hsound => hsound.1 ((hcontains hm.1).1 htaken)⟩
      · rw [if_neg htaken]
        have hmake : Checks (fun _ => True) (make (Fresh.symbol c.name)) True
            fun symbol _ => symbol.print = c.name :=
          Checks.make _ fun _ _ => Expr.print_symbol _ _
        have hsymbol := Builds.elaborating (I := fun m => SymbolsAre taken symbols ∧ Typed names m)
          (fun m supply hm => ⟨hm.1, hm.2.supplied m supply⟩) hmake
        apply Checks.adapt (hsymbol.after fun symbol => Checks.adapt
          (ih (taken ++ [c.name]) (symbols.insert c.name symbol)) fun draft hs =>
            ⟨⟨hs.2.1.insert hs.1, hs.2.2⟩, Iff.rfl, fun _ _ h => h⟩)
        rintro draft ⟨hsymbols, hdraft⟩
        have hnew := mt (hcontains hsymbols).2 htaken
        refine ⟨⟨hsymbols, hdraft⟩, by simp [hnew], ?_⟩
        rw [List.append_assoc]
        exact fun _ _ h => h

/-- An equation is built from its sides. -/
theorem buildEquation_checks (names : List String) (signatures : Signatures) (symbols : Symbols)
    (eq : Source.Equation) :
    Builds (Typed names) (buildEquation signatures symbols eq)
      (eq.WellFormed signatures.Declares (Scope.model symbols).Known) fun _ => Typed names := by
  have hside (e : Source.Expression) :
      Builds (Typed names) (elaborating (elaborateExpression signatures (.model symbols) e))
        (e.WellFormed signatures.Declares (Scope.model symbols).Known) fun _ => Typed names :=
    Builds.elaborating_keeps Typed.supplied (Checks.adapt (elaborateExpression_checks signatures _ e)
      fun _ hs => ⟨hs, Iff.rfl, fun _ _ _ => trivial⟩)
  unfold buildEquation
  apply Checks.congr ((hside eq.lhs).bind fun lhs => (hside eq.rhs).before fun rhs => ?_)
  · exact ⟨fun hsides => ⟨hsides.1, hsides.2⟩, fun heq => ⟨heq.lhs, heq.rhs⟩⟩
  · split
    · exact .pure fun _ hs => hs
    · exact .pure fun _ hs => hs

/-- Equations are built and added. -/
theorem buildEquations_checks (names : List String) (signatures : Signatures) (symbols : Symbols)
    {add : Model → Equation → Model} (hadd : ∀ m eq, Typed names m → Typed names (add m eq))
    (eqs : List Source.Equation) :
    Builds (Typed names) (buildEquations signatures symbols add eqs)
      (∀ eq ∈ eqs, eq.WellFormed signatures.Declares (Scope.model symbols).Known)
      fun _ => Typed names := by
  induction eqs with
  | nil =>
      rw [buildEquations]
      exact Checks.done.congr (by simp)
  | cons eq eqs ih =>
      rw [buildEquations, List.forall_mem_cons]
      apply Checks.bind (buildEquation_checks names signatures symbols eq)
      intro built
      cases built with
      | none => exact ih
      | some built => exact (Builds.modifyModel fun m hm => hadd m built hm).after fun _ => ih

end Elaboration

end FlatDae
