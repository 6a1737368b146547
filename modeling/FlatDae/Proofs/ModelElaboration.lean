/-
Module: FlatDae.Proofs.ModelElaboration
Purpose: A text has a model exactly if it is well formed. Each pass over the text checks its own rules
  and establishes what the next one relies on, so the passes together check all of them.
Main exports: Named, buildContents_checks, buildModel_checks, elaborateModel_isOk_iff
-/
import FlatDae.Proofs.ComponentElaboration

namespace FlatDae

namespace Elaboration

/-! ### Names of a text -/

/-- The signatures are those of the functions of a text; its components have symbols beside the time
    variable, and different names. -/
structure Named (text : Source.Model) (signatures : Signatures) (symbols : Symbols) : Prop where
  signatures : signatures.Are text.functions
  symbols : SymbolsAre ([timeName] ++ text.components.map (·.name)) symbols
  newNames : NewNames [timeName] (text.components.map (·.name))

theorem Signatures.Are.declares {text : Source.Model} {signatures : Signatures}
    (h : signatures.Are text.functions) : signatures.Declares = text.Declares := by
  funext function inputs outputs
  exact propext (h function inputs outputs)

theorem isType_eq (text : Source.Model) : (· ∈ text.types.map (·.name)) = text.IsType := by
  funext name
  exact propext List.mem_map

theorem isComponent_eq (text : Source.Model) :
    (· ∈ text.components.map (·.name)) = text.IsComponent := by
  funext name
  exact propext List.mem_map

namespace Named

variable {text : Source.Model} {signatures : Signatures} {symbols : Symbols}
  (h : Named text signatures symbols)
include h

/-- In equations the components and the time variable are known. -/
theorem known : (Scope.model symbols).Known = text.IsKnown := by
  funext name
  apply propext
  rw [Scope.Known, Scope.find?, h.symbols.found, List.singleton_append, List.mem_cons]
  exact or_congr Iff.rfl List.mem_map

/-- Every component has its symbol. -/
theorem hasSymbol {c : Source.Component} (hc : c ∈ text.components) : HasSymbol symbols c := by
  have hname : c.name ∈ text.components.map (·.name) := List.mem_map.2 ⟨c, hc, rfl⟩
  constructor
  · intro htime
    exact h.newNames.2 c.name hname (List.mem_singleton.2 htime)
  · have hfound := (h.symbols.found c.name).2 (List.mem_append_right _ hname)
    obtain ⟨symbol, hsymbol⟩ := Option.isSome_iff_exists.1 hfound
    exact ⟨symbol, hsymbol, h.symbols.print c.name symbol hsymbol⟩

/-- Registration can start with all components. -/
theorem underway {names : List String} {m : Model} (hm : Typed names m) :
    Underway (· ∈ names) symbols [] text.components m where
  types := hm.types.known
  apart := .of_empty hm.registered hm.index
  registered := by rw [hm.registered, List.map_nil]
  names := fun p hp => absurd hp List.not_mem_nil
  symbols := fun _ hc => h.hasSymbol hc
  newNames := newNames_nil_iff.2 h.newNames.1

end Named

/-! ### Contents -/

/-- Aliases are set if they are well formed. -/
theorem buildAliases_checks (isType : String → Prop) (cs : List Source.Component)
    (all : List (Source.Component × VarId)) :
    Builds (fun m => all.map Prod.fst = cs ∧ Populated isType all m)
      (all.forM fun (c, v) => buildAlias c v)
      (∀ c ∈ cs, c.AliasWellFormed (· ∈ cs.map (·.name)))
      fun _ _ => True := by
  have hall : Builds (Populated isType all) (all.forM fun (c, v) => buildAlias c v)
      (∀ p ∈ all, p.1.AliasWellFormed (· ∈ all.map (·.1.name))) fun _ => Populated isType all :=
    Checks.forM fun _ hp => buildAlias_checks hp
  apply Checks.adapt hall
  rintro draft ⟨rfl, hm⟩
  refine ⟨hm, ?_, fun _ _ _ => trivial⟩
  rw [List.forall_mem_map, List.map_map]
  rfl

/-- The equations, variables and aliases of a text are built if they are well formed. -/
theorem buildContents_checks (text : Source.Model) (signatures : Signatures) (symbols : Symbols) :
    Builds (fun m => Named text signatures symbols ∧ Typed (text.types.map (·.name)) m)
      (buildContents signatures symbols text)
      ((∀ eq ∈ text.initialEquations, eq.WellFormed text.Declares text.IsKnown) ∧
        (∀ eq ∈ text.equations, eq.WellFormed text.Declares text.IsKnown) ∧
        (∀ c ∈ text.components, c.WellFormed text.IsType text.Declares text.IsKnown) ∧
        ∀ c ∈ text.components, c.AliasWellFormed text.IsComponent)
      fun _ _ => True := by
  have hequations {add : Model → Equation → Model}
      (hadd : ∀ m eq, Typed (text.types.map (·.name)) m → Typed (text.types.map (·.name)) (add m eq))
      (eqs : List Source.Equation) :
      Builds (fun m => Named text signatures symbols ∧ Typed (text.types.map (·.name)) m)
        (buildEquations signatures symbols add eqs)
        (∀ eq ∈ eqs, eq.WellFormed signatures.Declares (Scope.model symbols).Known)
        fun _ m => Named text signatures symbols ∧ Typed (text.types.map (·.name)) m :=
    Checks.framed (buildEquations_checks _ signatures symbols hadd eqs) _
  have hvariables : Builds
      (fun m => Named text signatures symbols ∧ Typed (text.types.map (·.name)) m)
      (buildVariables signatures symbols text.components)
      (∀ c ∈ text.components, c.WellFormed (· ∈ text.types.map (·.name)) signatures.Declares
        (Scope.model symbols).Known)
      fun all m => all.map Prod.fst = text.components ∧
        Populated (· ∈ text.types.map (·.name)) all m :=
    Checks.adapt (buildVariables_checks text.components []) fun _ hs =>
      ⟨hs.1.underway hs.2, Iff.rfl, fun _ _ h => h⟩
  have hcontents := (hequations addInitialEquation_typed text.initialEquations).bind fun _ =>
    (hequations addDaeEquation_typed text.equations).bind fun _ =>
      hvariables.bind fun all => buildAliases_checks _ text.components all
  apply Checks.adapt hcontents
  rintro draft ⟨hnamed, hdraft⟩
  refine ⟨⟨hnamed, hdraft⟩, ?_, fun _ _ h => h⟩
  rw [hnamed.signatures.declares, hnamed.known, isType_eq, isComponent_eq]

/-! ### Models -/

/-- The time variable has its symbol before anything else is built. -/
theorem buildTime_checks {α : Type} {rest : Expr → Building α} {sound : Prop}
    {J : α → Model → Prop}
    (hrest : ∀ time, Builds (fun m => time.print = timeName ∧ Typed [] m) (rest time) sound J) :
    Builds (Typed [])
      (do
        let time ← elaborating (make (Fresh.symbol timeName))
        modifyModel fun m => ((), { m with time := some time })
        rest time)
      sound J := by
  have hmake : Checks (fun _ => True) (make (Fresh.symbol timeName)) True
      fun time _ => time.print = timeName :=
    Checks.make _ fun _ _ => Expr.print_symbol _ _
  apply Checks.after (Builds.elaborating Typed.supplied hmake)
  intro time
  have hset : Builds (fun m => time.print = timeName ∧ Typed [] m)
      (modifyModel fun m => ((), { m with time := some time })) True
      fun _ m => time.print = timeName ∧ Typed [] m :=
    Builds.modifyModel fun m hm => ⟨hm.1, hm.2.types, hm.2.registered, hm.2.index⟩
  exact hset.after fun _ => hrest time

/-- The functions of a text are built if they are well formed. -/
theorem buildFunctions_checks (text : Source.Model) (names : List String) (signatures : Signatures) :
    Builds (fun m => signatures.Are text.functions ∧ Typed names m)
      (text.functions.forM (buildFunction signatures))
      (∀ d ∈ text.functions, d.WellFormed text.Declares)
      fun _ m => signatures.Are text.functions ∧ Typed names m := by
  have hfunctions : Builds (Typed names) (text.functions.forM (buildFunction signatures))
      (∀ d ∈ text.functions, d.WellFormed signatures.Declares) fun _ => Typed names :=
    Checks.forM fun d _ => buildFunction_checks names signatures d
  apply Checks.adapt (hfunctions.framed (signatures.Are text.functions))
  rintro draft ⟨hsignatures, hdraft⟩
  rw [hsignatures.declares]
  exact ⟨⟨hsignatures, hdraft⟩, Iff.rfl, fun _ _ h => h⟩

/-- The components are given their symbols if their names are new. -/
theorem nameComponents_checks (text : Source.Model) (names : List String) (signatures : Signatures)
    (time : Expr) :
    Builds (fun m => time.print = timeName ∧ signatures.Are text.functions ∧ Typed names m)
      (symbolsOf text.components ((∅ : Symbols).insert timeName time))
      (NewNames [timeName] (text.components.map (·.name)))
      fun symbols m => Named text signatures symbols ∧ Typed names m := by
  have hsymbols := Checks.remember (symbolsOf_checks names text.components [timeName]
    ((∅ : Symbols).insert timeName time))
  apply Checks.adapt (Checks.framed hsymbols (signatures.Are text.functions))
  rintro draft ⟨hprint, hsignatures, hdraft⟩
  refine ⟨⟨hsignatures, symbolsAre_empty.insert hprint, hdraft⟩, Iff.rfl, ?_⟩
  rintro symbols draft' ⟨_, hnew, hfound, hdraft'⟩
  exact ⟨⟨hsignatures, hfound, hnew⟩, hdraft'⟩

/-- The rules for a text, in the order in which its parts are built. -/
theorem wellFormed_iff (text : Source.Model) :
    ((∀ d ∈ text.types, d.WellFormed) ∧ NewNames [] (text.types.map (·.name))) ∧
      NewNames [] (text.functions.map (·.name)) ∧
      (∀ d ∈ text.functions, d.WellFormed text.Declares) ∧
      NewNames [timeName] (text.components.map (·.name)) ∧
      (∀ eq ∈ text.initialEquations, eq.WellFormed text.Declares text.IsKnown) ∧
      (∀ eq ∈ text.equations, eq.WellFormed text.Declares text.IsKnown) ∧
      (∀ c ∈ text.components, c.WellFormed text.IsType text.Declares text.IsKnown) ∧
      (∀ c ∈ text.components, c.AliasWellFormed text.IsComponent) ↔
    text.WellFormed := by
  simp only [newNames_nil_iff]
  constructor
  · rintro ⟨⟨htypes, htypeNames⟩, hfunctionNames, hfunctions, ⟨hcomponentNames, htime⟩, hinitial,
      hequations, hcomponents, haliases⟩
    refine ⟨htypeNames, htypes, hfunctionNames, hfunctions, hcomponentNames, ?_, hcomponents,
      hinitial, hequations, haliases⟩
    rintro ⟨c, hc, hname⟩
    exact htime c.name (List.mem_map.2 ⟨c, hc, rfl⟩) (List.mem_singleton.2 hname)
  · intro h
    refine ⟨⟨h.types, h.typeNames⟩, h.functionNames, h.functions, ⟨h.componentNames, ?_⟩,
      h.initialEquations, h.equations, h.components, h.aliases⟩
    intro name hname htime
    obtain ⟨c, hc, rfl⟩ := List.mem_map.1 hname
    exact h.timeFree ⟨c, hc, List.mem_singleton.1 htime⟩

/-- A text is built if it is well formed. -/
theorem buildModel_checks (text : Source.Model) :
    Builds (Typed []) (buildModel text) text.WellFormed fun _ _ => True := by
  apply buildTime_checks
  intro time
  have htypes : Builds (fun m => time.print = timeName ∧ Typed [] m) (text.types.forM buildType)
      ((∀ d ∈ text.types, d.WellFormed) ∧ NewNames [] (text.types.map (·.name)))
      fun _ m => time.print = timeName ∧ Typed (text.types.map (·.name)) m :=
    Checks.framed (buildTypes_checks [] text.types) _
  have hsignatures : Builds
      (fun m => time.print = timeName ∧ Typed (text.types.map (·.name)) m)
      (signaturesOf text.functions ∅) (NewNames [] (text.functions.map (·.name)))
      fun signatures m => time.print = timeName ∧ signatures.Are text.functions ∧
        Typed (text.types.map (·.name)) m :=
    Checks.adapt (Checks.framed (signaturesOf_checks _ text.functions [] ∅) _) fun _ hs =>
      ⟨⟨hs.1, Signatures.are_nil, hs.2⟩, Iff.rfl, fun _ _ h => h⟩
  have hfunctions (signatures : Signatures) : Builds
      (fun m => time.print = timeName ∧ signatures.Are text.functions ∧
        Typed (text.types.map (·.name)) m)
      (text.functions.forM (buildFunction signatures))
      (∀ d ∈ text.functions, d.WellFormed text.Declares)
      fun _ m => time.print = timeName ∧ signatures.Are text.functions ∧
        Typed (text.types.map (·.name)) m :=
    Checks.framed (buildFunctions_checks text _ signatures) _
  have hlinks : Builds (fun _ => True) (modifyModel fun m => ((), m.resolveLinks.2)) True
      fun _ _ => True :=
    Builds.modifyModel fun _ _ => trivial
  apply Checks.congr (htypes.bind fun _ => hsignatures.bind fun signatures => ?_) (wellFormed_iff text)
  apply Checks.bind (hfunctions signatures)
  intro _
  apply Checks.bind (nameComponents_checks text _ signatures time)
  intro symbols
  exact (buildContents_checks text signatures symbols).before fun _ => hlinks

/-- A text has a model exactly if it is well formed. -/
theorem elaborateModel_isOk_iff (text : Source.Model) :
    (elaborateModel text).isOk = true ↔ text.WellFormed := by
  have hstart : Typed [] ({} : Draft).model := ⟨onlyTypes_empty, rfl, rfl⟩
  have hchecks := buildModel_checks text
  have hrun : elaborateModel text =
      if ((buildModel text).run {}).2.problems.isEmpty then .ok ((buildModel text).run {}).2.model
      else .error ((buildModel text).run {}).2.problems.toList :=
    rfl
  have hok : (elaborateModel text).isOk = true ↔ ((buildModel text).run {}).2.problems.size = 0 := by
    rw [← Array.isEmpty_iff_size_eq_zero, hrun]
    cases ((buildModel text).run {}).2.problems.isEmpty with
    | true => exact iff_of_true rfl rfl
    | false => exact iff_of_false Bool.false_ne_true Bool.false_ne_true
  rw [hok]
  by_cases htext : text.WellFormed
  · exact iff_of_true (hchecks.passes htext {} hstart).1 htext
  · exact iff_of_false (Nat.ne_of_gt (hchecks.reports htext {} hstart)) htext

end Elaboration

end FlatDae
