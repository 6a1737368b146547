/-
Module: FlatDae.Proofs.NameReports
Purpose: What is reported of names while the parts of a text are built. Each part reports the names without
  meaning in the expressions that it looks at, all of them and no others, at the places where they stand,
  and leaves the types of the model known as far as the next part needs them.
Main exports: BuildReports, buildTypes_reports, buildFunction_reports, buildVariables_reports,
  buildContents_reports, misnames_iff, buildModel_reports
-/
import FlatDae.Proofs.ExpressionsInUse
import FlatDae.Proofs.TypeKeeping

namespace FlatDae

namespace Elaboration

open Source (settingExpressions TypeDeclaration FunctionDeclaration Component Region OffersType
  lastDeclared? LastDeclares)

/-! ### Drafts -/

/-- Faults that are reported while a model is built; `I` holds of the model before and `J` after it. -/
abbrev BuildReports {α : Type} (I : Model → Prop) (x : Building α) (found : Located → Prop)
    (J : α → Model → Prop) : Prop :=
  Reports (fun draft : Draft => I draft.model) x found fun a draft => J a draft.model

namespace BuildReports

variable {α : Type} {I : Model → Prop} {found : Located → Prop} {J : α → Model → Prop}

theorem elaborating {x : Elaborating α} {R : α → Prop}
    (hI : ∀ (m : Model) (supply : Supply), I m → I { m with supply })
    (h : Reports (fun _ => True) x found fun a _ => R a) :
    BuildReports I (Elaboration.elaborating x) found fun a m => R a ∧ I m := by
  intro draft hdraft
  obtain ⟨hfaults, ha⟩ := h { supply := draft.model.supply, problems := draft.problems } trivial
  exact ⟨hfaults, ha, hI _ _ hdraft⟩

theorem elaborating_keeps {x : Elaborating α}
    (hI : ∀ (m : Model) (supply : Supply), I m → I { m with supply })
    (h : Reports (fun _ => True) x found fun _ _ => True) :
    BuildReports I (Elaboration.elaborating x) found fun _ => I :=
  Reports.weaken (elaborating hI h) fun _ _ ha => ha.2

theorem get {f : Draft → Building α}
    (hf : ∀ start : Draft, BuildReports (fun m => start.model = m ∧ I m) (f start) found J) :
    BuildReports I (MonadState.get >>= f) found J :=
  fun draft hdraft => hf draft draft ⟨rfl, hdraft⟩

theorem modifyModel {f : Model → α × Model} (hJ : ∀ m, I m → J (f m).1 (f m).2) :
    BuildReports I (Elaboration.modifyModel f) (fun _ => False) J :=
  Reports.silent (fun _ => rfl) fun draft hdraft => hJ draft.model hdraft

/-- What the model refuses is no fault of a name. -/
theorem attempt {start : Nat} {action : ModelAction Unit} {K : Model → Prop}
    (h : ∀ m, I m → match action.run m with
      | .ok () m' | .error _ m' => K m') :
    BuildReports I (Elaboration.attempt start action) (fun _ => False) fun _ => K := by
  intro draft hdraft
  have houtcome := h draft.model hdraft
  rw [Builds.attempt_run]
  cases hrun : action.run draft.model with
  | ok a m =>
      rw [hrun] at houtcome
      exact ⟨fun l _ => (iff_of_eq (or_false _)).symm, houtcome⟩
  | error error m =>
      rw [hrun] at houtcome
      refine ⟨fun l hl => ?_, houtcome⟩
      refine Array.mem_push.trans (or_congr_right (iff_false_intro ?_))
      rintro rfl
      exact hl

end BuildReports

/-! ### Types -/

theorem TypesKnown.congr {isType isType' : String → Prop} {types : TypeRegistry}
    (h : TypesKnown isType types)
    (hsame : ∀ name, Domain.ofName? name = none → (isType name ↔ isType' name)) :
    TypesKnown isType' types :=
  ⟨h.named, fun name hname => (h.found name hname).trans (hsame name hname), h.builtin⟩

/-- Whether or not the model takes a type, it has one of its name then. -/
theorem addType_reports {isType : String → Prop} (start : Nat) (type : VariableType) :
    BuildReports (fun m => TypesKnown isType m.types) (attempt start (Model.addType type))
      (fun _ => False) fun _ m => TypesKnown (fun name => isType name ∨ type.name = name) m.types := by
  refine BuildReports.attempt fun m hm => ?_
  rw [Model.addType_run]
  cases hadd : m.types.add type with
  | ok larger =>
      obtain ⟨hbuiltin, -, rfl⟩ := TypeRegistry.add_eq_ok_iff.1 hadd
      refine ⟨hm.named.store type, fun name hname => ?_, fun domain found hfound => ?_⟩
      · rw [TypeRegistry.get?_store]
        by_cases heq : type.name = name
        · simp [heq]
        · simpa [heq] using hm.found name hname
      · rw [TypeRegistry.get?_store] at hfound
        split at hfound
        · rename_i hname
          rw [← Option.some.inj hfound]
          exact TypeRegistry.checkBuiltinName_eq_ok_iff.1 hbuiltin domain hname
        · exact hm.builtin domain found hfound
  | error error =>
      refine hm.congr fun name hname => ⟨Or.inl, ?_⟩
      rintro (hknown | rfl)
      · exact hknown
      · -- only a type of the same name can be in the way
        rw [← hm.found _ hname]
        cases hfound : m.types.get? type.name with
        | some other => rfl
        | none =>
            have hcheck : TypeRegistry.checkBuiltinName type = .ok () :=
              TypeRegistry.checkBuiltinName_eq_ok_iff.2 fun domain hdomain => by
                rw [hdomain, Domain.ofName?_name] at hname
                cases hname
            rw [TypeRegistry.add_eq_ok_iff.2 ⟨hcheck, hfound, rfl⟩] at hadd
            cases hadd

/-- In a type no name means anything and no function is called. -/
theorem misnamed_type_iff (text : Source.Model) {owner : String} {e : Source.Expression} {l : Located} :
    Misnamed ∅ (.type owner) e l ↔ (Region.type owner).Misnames text e l := by
  have hdeclares : Signatures.Declares ∅ = (Region.type owner).Declares text := by
    funext function inputs outputs
    simp [Signatures.Declares, Region.Declares]
  have hknown : (Scope.type owner).Known = (Region.type owner).Known text := by
    funext other
    simp [Scope.Known, Scope.find?, Region.Known]
  have hfault : (Scope.type owner).unresolved = (Region.type owner).unresolved := rfl
  rw [Misnamed, Region.Misnames, hdeclares, hknown, hfault]

/-- The attributes of a type are looked at if it extends a built-in one. -/
theorem buildType_reports (text : Source.Model) {isType : String → Prop} (d : TypeDeclaration) :
    BuildReports (fun m => TypesKnown isType m.types) (buildType d)
      (fun l => (Domain.ofName? d.base).isSome = true ∧
        ∃ e ∈ settingExpressions d.attributes, (Region.type d.name).Misnames text e l)
      fun _ m => TypesKnown
        (fun name => isType name ∨ d.name = name ∧ (Domain.ofName? d.base).isSome = true) m.types := by
  have hsupply (m : Model) (supply : Supply) (hm : TypesKnown isType m.types) :
      TypesKnown isType { m with supply }.types := hm
  unfold buildType
  cases hbase : Domain.ofName? d.base with
  | none =>
      have hreport : BuildReports (fun m => TypesKnown isType m.types)
          (elaborating (report d.start (.unknownBase d.name d.base))) (fun _ => False)
          fun _ m => TypesKnown isType m.types :=
        BuildReports.elaborating_keeps hsupply (.report_other d.start id)
      exact (hreport.weaken fun _ _ h => by simpa using h).congr fun l => by simp
  | some domain =>
      have hsettings := BuildReports.elaborating_keeps hsupply
        (elaborateAttributes_reports ∅ (.type d.name) d.attributes)
      refine Reports.congr (.before hsettings fun settings => ?_) fun l => ?_
      · have hnew : Reports (fun _ => True) (make (VariableType.new d.name domain)) (fun _ => False)
            fun type _ => type.name = d.name := .make _ fun _ _ => rfl
        refine .after (BuildReports.elaborating hsupply hnew) fun new => .assume fun hname => ?_
        refine (Reports.discard (addType_reports d.start _)).weaken fun _ draft ⟨_, h⟩ => ?_
        rw [(foldl_withAttribute_type _ new).1, hname] at h
        simpa using h
      · simp [misnamed_type_iff text]

theorem buildTypes_reports (text : Source.Model) {isType : String → Prop} (ds : List TypeDeclaration) :
    BuildReports (fun m => TypesKnown isType m.types) (ds.forM buildType)
      (fun l => ∃ d ∈ ds, (Domain.ofName? d.base).isSome = true ∧
        ∃ e ∈ settingExpressions d.attributes, (Region.type d.name).Misnames text e l)
      fun _ m => TypesKnown (fun name => isType name ∨ OffersType ds name) m.types := by
  induction ds generalizing isType with
  | nil =>
      refine Reports.congr (.pure fun draft hs => hs.congr fun name _ => ?_) fun l => by simp
      simp [OffersType]
  | cons d ds ih =>
      refine Reports.congr (.bind (buildType_reports text d) fun _ =>
        ih.weaken fun _ draft h => h.congr fun name _ => ?_) fun l => by rw [List.exists_mem_cons_iff]
      simp only [OffersType, List.exists_mem_cons_iff, or_assoc]

/-! ### Functions -/

/-- The signature that a declaration gives to its function. -/
def signature (d : FunctionDeclaration) : Signature := ⟨d.params.length, d.outputs.length⟩

/-- Of several functions with one name the last one has the signature. -/
theorem signaturesOf_reports {I : Model → Prop}
    (hI : ∀ (m : Model) (supply : Supply), I m → I { m with supply }) (ds : List FunctionDeclaration)
    (signatures : Signatures) :
    BuildReports I (signaturesOf ds signatures) (fun _ => False)
      fun found m => (∀ name, found[name]? =
        ((lastDeclared? ds name).map signature <|> signatures[name]?)) ∧ I m := by
  induction ds generalizing signatures with
  | nil =>
      rw [signaturesOf]
      exact .pure fun _ hs => ⟨fun name => rfl, hs⟩
  | cons d ds ih =>
      have hrest : BuildReports I
          (signaturesOf ds (signatures.insert d.name ⟨d.params.length, d.outputs.length⟩)) (fun _ => False)
          fun found m => (∀ name, found[name]? =
            ((lastDeclared? (d :: ds) name).map signature <|> signatures[name]?)) ∧ I m := by
        refine (ih _).weaken fun found draft hs => ⟨fun name => ?_, hs.2⟩
        rw [hs.1, lastDeclared?, Std.TreeMap.getElem?_insert]
        by_cases hname : d.name = name
        · cases lastDeclared? ds name <;> simp [hname, signature]
        · cases lastDeclared? ds name <;> simp [hname]
      rw [signaturesOf]
      split
      · exact .after (BuildReports.elaborating_keeps hI (.report_other d.start id)) fun _ => hrest
      · exact hrest

/-- What functions look like to calls. -/
theorem declares_eq {text : Source.Model} {signatures : Signatures}
    (h : ∀ name, signatures[name]? = (lastDeclared? text.functions name).map signature) :
    signatures.Declares = LastDeclares text.functions := by
  funext function inputs outputs
  rw [Signatures.Declares, h, LastDeclares]
  cases lastDeclared? text.functions function <;> simp [signature]

/-- The outputs of a function with different inputs are looked at in turn. -/
theorem buildFunction_reports {text : Source.Model} {isType : String → Prop} {signatures : Signatures}
    (hsignatures : signatures.Declares = LastDeclares text.functions) (d : FunctionDeclaration) :
    BuildReports (fun m => TypesKnown isType m.types) (buildFunction signatures d)
      (fun l => d.params.Nodup ∧ ∃ e, InTurn ((Region.function d.name d.params).Admits text) d.outputs e ∧
        (Region.function d.name d.params).Misnames text e l)
      fun _ m => TypesKnown isType m.types := by
  have hsupply (m : Model) (supply : Supply) (hm : TypesKnown isType m.types) :
      TypesKnown isType { m with supply }.types := hm
  unfold buildFunction
  by_cases hparams : d.params.Nodup
  · have hlength := (eraseDups_length_eq_iff d.params).2 hparams
    rw [if_neg (by simp [← hlength])]
    have hmake : Reports (fun _ => True) (make (newSymbols d.params)) (fun _ => False)
        fun inputs _ => inputs.length = d.params.length :=
      .make _ fun progress _ => newSymbols_length d.params progress.supply
    refine .after (BuildReports.elaborating hsupply hmake) fun inputs => .assume fun hinputs => ?_
    have hturn := BuildReports.elaborating_keeps hsupply (elaborateInTurn_reports signatures
      (.function d.name (Std.TreeMap.ofList (d.params.zip inputs))) d.outputs)
    have hset (outputs : List Expr) : BuildReports (fun m => TypesKnown isType m.types)
        (modifyModel fun m => ((), m.setFunction { name := d.name, inputs, outputs })) (fun _ => False)
        fun _ m => TypesKnown isType m.types := .modifyModel fun _ hm => hm
    refine Reports.congr (.before hturn fun built => ?_) fun l => ?_
    · cases built with
      | none => exact .pure fun _ hs => hs
      | some outputs => exact hset outputs
    · rw [and_iff_right hparams]
      simp only [Misnamed, known_function hinputs, hsignatures]
      rfl
  · have hlength := mt (eraseDups_length_eq_iff d.params).1 hparams
    rw [if_pos (by simpa using hlength)]
    have hreport : BuildReports (fun m => TypesKnown isType m.types)
        (elaborating (report d.start (.repeatedInput d.name))) (fun _ => False)
        fun _ m => TypesKnown isType m.types :=
      BuildReports.elaborating_keeps hsupply (.report_other d.start id)
    exact hreport.congr fun l => ⟨False.elim, fun h => hparams h.1⟩

/-! ### Components and equations -/

theorem symbolsOf_reports {I : Model → Prop}
    (hI : ∀ (m : Model) (supply : Supply), I m → I { m with supply }) (cs : List Component)
    {taken : List String} {symbols : Symbols} (hsymbols : SymbolsAre taken symbols) :
    BuildReports I (symbolsOf cs symbols) (fun _ => False)
      fun found m => SymbolsAre (taken ++ cs.map (·.name)) found ∧ I m := by
  induction cs generalizing taken symbols with
  | nil =>
      rw [symbolsOf, List.map_nil, List.append_nil]
      exact .pure fun _ hs => ⟨hsymbols, hs⟩
  | cons c cs ih =>
      rw [symbolsOf, List.map_cons, List.append_cons]
      split
      · rename_i htaken
        rw [← Std.TreeMap.isSome_getElem?_eq_contains, hsymbols.found] at htaken
        have hsame : SymbolsAre (taken ++ [c.name]) symbols := by
          refine ⟨fun name => (hsymbols.found name).trans ?_, hsymbols.print⟩
          rw [List.mem_append, List.mem_singleton]
          exact ⟨Or.inl, fun h => h.elim id fun heq => heq ▸ htaken⟩
        exact .after (BuildReports.elaborating_keeps hI (.report_other c.start id)) fun _ => ih hsame
      · have hmake : Reports (fun _ => True) (make (Fresh.symbol c.name)) (fun _ => False)
            fun symbol _ => symbol.print = c.name := .make _ fun _ _ => Expr.print_symbol _ _
        exact .after (BuildReports.elaborating hI hmake) fun symbol => .assume fun hprint =>
          ih (hsymbols.insert hprint)

/-- The fault of an alias is none of a name in an expression. -/
theorem buildAlias_reports {isType : String → Prop} (c : Component) (v : VarId) :
    BuildReports (fun m => TypesKnown isType m.types) (buildAlias c v) (fun _ => False)
      fun _ m => TypesKnown isType m.types := by
  have hreport {problem : Problem} (h : ¬ problem.IsNaming) : BuildReports (fun m => TypesKnown isType m.types)
      (elaborating (report c.start problem)) (fun _ => False) fun _ m => TypesKnown isType m.types :=
    BuildReports.elaborating_keeps (fun _ _ hm => hm) (.report_other c.start h)
  have hset (f : Variable → Variable) : BuildReports (fun m => TypesKnown isType m.types)
      (modifyModel fun m => ((), m.modifyVariable v f)) (fun _ => False)
      fun _ m => TypesKnown isType m.types := .modifyModel fun _ hm => hm
  unfold buildAlias
  cases c.aliasOf with
  | none => exact .pure fun _ hs => hs
  | some clause =>
      refine BuildReports.get fun start => Reports.strengthen ?_ fun _ hs => hs.2
      cases start.model.findVariable? clause.target with
      | none => exact hreport id
      | some target =>
          by_cases hself : target = v
          · simp only [hself, beq_self_eq_true, if_true]
            exact hreport id
          · simp only [beq_eq_false_iff_ne.2 hself, Bool.false_eq_true, if_false]
            exact hset _

section Contents

variable {text : Source.Model} {isType : String → Prop} {signatures : Signatures} {symbols : Symbols}
  (hsignatures : signatures.Declares = LastDeclares text.functions)
  (hsymbols : SymbolsAre ([timeName] ++ text.components.map (·.name)) symbols)
include hsignatures hsymbols

/-- In the equations the components and the time variable are known. -/
theorem misnamed_contents_iff {e : Source.Expression} {l : Located} :
    Misnamed signatures (.model symbols) e l ↔ Region.contents.Misnames text e l := by
  have hknown : (Scope.model symbols).Known = text.IsKnown := by
    funext name
    apply propext
    rw [Scope.Known, Scope.find?, hsymbols.found, List.singleton_append, List.mem_cons]
    exact or_congr Iff.rfl List.mem_map
  rw [Misnamed, hsignatures, hknown]
  rfl

theorem elaborateSide_reports {I : Model → Prop}
    (hI : ∀ (m : Model) (supply : Supply), I m → I { m with supply }) (e : Source.Expression) :
    BuildReports I (elaborating (elaborateExpression signatures (.model symbols) e))
      (Region.contents.Misnames text e) fun _ => I :=
  Reports.congr (BuildReports.elaborating_keeps hI
    ((elaborateExpression_reports signatures (.model symbols) e).weaken fun _ _ _ => trivial))
    fun _ => misnamed_contents_iff hsignatures hsymbols

/-- Both sides of all equations are looked at. -/
theorem buildEquations_reports {add : Model → Equation → Model}
    (hadd : ∀ m eq, (add m eq).types = m.types) (eqs : List Source.Equation) :
    BuildReports (fun m => TypesKnown isType m.types) (buildEquations signatures symbols add eqs)
      (fun l => ∃ eq ∈ eqs, Region.contents.Misnames text eq.lhs l ∨ Region.contents.Misnames text eq.rhs l)
      fun _ m => TypesKnown isType m.types := by
  have hside (e : Source.Expression) := elaborateSide_reports hsignatures hsymbols
    (I := fun m => TypesKnown isType m.types) (fun _ _ hm => hm) e
  induction eqs with
  | nil =>
      rw [buildEquations]
      exact Reports.congr (.pure fun _ hs => hs) fun l => by simp
  | cons eq eqs ih =>
      have hequation : BuildReports (fun m => TypesKnown isType m.types)
          (buildEquation signatures symbols eq)
          (fun l => Region.contents.Misnames text eq.lhs l ∨ Region.contents.Misnames text eq.rhs l)
          fun _ m => TypesKnown isType m.types := by
        unfold buildEquation
        refine .bind (hside eq.lhs) fun lhs => .before (hside eq.rhs) fun rhs => ?_
        split
        · exact .pure fun _ hs => hs
        · exact .pure fun _ hs => hs
      rw [buildEquations]
      refine Reports.congr (.bind hequation fun built => ?_) fun l => by rw [List.exists_mem_cons_iff]
      cases built with
      | none => exact ih
      | some built =>
          have hset : BuildReports (fun m => TypesKnown isType m.types)
              (modifyModel fun m => ((), add m built)) (fun _ => False) fun _ m => TypesKnown isType m.types :=
            .modifyModel fun m hm => by rwa [hadd]
          exact hset.after fun _ => ih

/-- Attributes and binding of a component are looked at behind a head that says something. -/
theorem completeVariable_reports (c : Component) (declared : Variable) :
    BuildReports (fun m => Fits m.types c.name declared ∧ TypesKnown isType m.types)
      (completeVariable signatures symbols c declared)
      (fun l => ∃ e, (e ∈ settingExpressions c.attributes ∨ c.binding = some e) ∧
        Region.contents.Misnames text e l)
      fun built m => (∀ var, built = some var → Fits m.types c.name var) ∧ TypesKnown isType m.types := by
  have hsupply (var : Variable) (m : Model) (supply : Supply)
      (hm : Fits m.types c.name var ∧ TypesKnown isType m.types) :
      Fits m.types c.name var ∧ TypesKnown isType { m with supply }.types := hm
  have hsettings := BuildReports.elaborating_keeps (hsupply declared)
    (elaborateAttributes_reports signatures (.model symbols) c.attributes)
  unfold completeVariable
  simp only [or_and_right, exists_or, ← misnamed_contents_iff hsignatures hsymbols]
  refine .bind hsettings fun settings => ?_
  have hset (m : Model) (hm : Fits m.types c.name declared) :
      Fits m.types c.name
        (settings.foldl (fun var p => var.withAttribute p.1 p.2) declared) :=
    hm.foldl_withAttribute settings
  generalize settings.foldl (fun var p => var.withAttribute p.1 p.2) declared = var at hset
  cases hbinding : c.binding with
  | none =>
      refine Reports.congr (.pure fun draft hs => ⟨?_, hs.2⟩) fun l => by simp
      intro var' hvar
      rw [← Option.some.inj hvar]
      exact hset _ hs.1
  | some binding =>
      have hbuilt := elaborateSide_reports hsignatures hsymbols (hsupply var) binding
      refine Reports.strengthen (Reports.congr (.before hbuilt fun built => ?_) fun l => ?_)
        fun draft hs => ⟨hset _ hs.1, hs.2⟩
      · cases built with
        | none => exact .pure fun draft hs => ⟨by simp, hs.2⟩
        | some value =>
            refine .pure fun draft hs => ⟨?_, hs.2⟩
            intro var' hvar
            rw [← Option.some.inj hvar]
            exact hs.1.foldl_withAttribute [(Variable.bindingAttribute, .expr value)]
      · simp [misnamed_contents_iff hsignatures hsymbols]

omit hsignatures hsymbols in
/-- What is wrong with the head of a component is no fault of a name in an expression. -/
theorem declaredVariable_not_isNaming {m : Model} {c : Component} {symbol : Expr} {problem : Problem}
    (h : declaredVariable m c symbol = .error problem) : ¬ problem.IsNaming := by
  unfold declaredVariable at h
  simp only [bind, Except.bind] at h
  split at h
  · rename_i htype
    unfold typeOf at htype
    cases h
    grind [Problem.IsNaming]
  · split at h
    · rename_i hvariability
      unfold variabilityOf at hvariability
      cases h
      grind [Problem.IsNaming]
    · split at h
      · rename_i hcausality
        unfold causalityOf at hcausality
        cases h
        grind [Problem.IsNaming]
      · cases h

/-- A component is looked at unless it is called like the time variable or has a fault in its head. -/
theorem buildVariable_reports {c : Component} (hc : c ∈ text.components) :
    BuildReports (fun m => TypesKnown isType m.types) (buildVariable signatures symbols c)
      (fun l => (c.name ≠ timeName ∧ c.HeadWellFormed isType) ∧
        ∃ e, (e ∈ settingExpressions c.attributes ∨ c.binding = some e) ∧
          Region.contents.Misnames text e l)
      fun built m => (∀ var, built = some var → Fits m.types c.name var) ∧ TypesKnown isType m.types := by
  have hname : c.name ∈ [timeName] ++ text.components.map (·.name) :=
    List.mem_append_right _ (List.mem_map.2 ⟨c, hc, rfl⟩)
  obtain ⟨symbol, hsymbol⟩ := Option.isSome_iff_exists.1 ((hsymbols.found c.name).2 hname)
  unfold buildVariable
  by_cases htime : c.name = timeName
  · rw [if_pos (by simpa using htime)]
    exact Reports.congr (.pure fun draft hs => ⟨by simp, hs⟩) fun l => ⟨False.elim, fun h => h.1.1 htime⟩
  · rw [if_neg (by simpa using htime), hsymbol]
    refine BuildReports.get fun start => ?_
    cases hdeclared : declaredVariable start.model c symbol with
    | error problem =>
        -- the head says nothing that a variable could be made of
        have hnone : BuildReports (fun m => TypesKnown isType m.types)
            (elaborating (refuse c.start problem) : Building (Option Variable)) (fun _ => False)
            fun built m => (built.isSome = true ↔ False) ∧ TypesKnown isType m.types :=
          BuildReports.elaborating (fun _ _ hm => hm)
            (.refuse_other c.start (declaredVariable_not_isNaming hdeclared) id)
        refine Reports.adapt hnone ?_
        rintro draft ⟨hstart, hm⟩
        have hspec := declaredVariable_spec hm c symbol
        rw [← hstart, hdeclared] at hspec
        refine ⟨hm, fun l => ⟨False.elim, fun h => hspec h.1.2⟩, fun built draft' h => ⟨?_, h.2⟩⟩
        intro var hvar
        exact (h.1.1 (Option.isSome_of_eq_some hvar)).elim
    | ok declared =>
        have hcomplete : BuildReports (fun m => Fits m.types c.name declared ∧ TypesKnown isType m.types)
            (completeVariable signatures symbols c declared) _ _ :=
          completeVariable_reports hsignatures hsymbols c declared
        refine hcomplete.adapt ?_
        rintro draft ⟨hstart, hm⟩
        have hspec := declaredVariable_spec hm c symbol
        rw [← hstart, hdeclared, hsymbols.print c.name symbol hsymbol, hstart] at hspec
        exact ⟨⟨hspec.2, hm⟩, fun l => (and_iff_right ⟨htime, hspec.1⟩).symm, fun _ _ h => h⟩

omit hsignatures hsymbols in
/-- Nothing is reported of a variable that is built but its name. -/
theorem addVariable_reports (c : Component) (v : VarId) :
    BuildReports (fun m => Fits m.types c.name (m.store.get v) ∧ TypesKnown isType m.types)
      (attempt c.start (Model.addVariable v)) (fun _ => False) fun _ m => TypesKnown isType m.types := by
  refine BuildReports.attempt fun m ⟨hfits, hm⟩ => ?_
  obtain ⟨classification, hclassify⟩ := hfits.classify m.store m.relations
  obtain ⟨type, types, hassign, htypes⟩ := hm.assign hfits
  rw [Model.addVariable_run, hclassify, hassign]
  by_cases htaken : m.names.contains (m.store.get v).name = true
  · rw [if_pos htaken]
    exact hm
  · rw [if_neg htaken]
    change TypesKnown isType ((m.prepare v classification type types).linkPartner v classification).types
    rwa [Model.linkPrepared_types]

/-- All components are looked at. -/
theorem buildVariables_reports {cs : List Component} (hcs : ∀ c ∈ cs, c ∈ text.components) :
    BuildReports (fun m => TypesKnown isType m.types) (buildVariables signatures symbols cs)
      (fun l => ∃ c ∈ cs, (c.name ≠ timeName ∧ c.HeadWellFormed isType) ∧
        ∃ e, (e ∈ settingExpressions c.attributes ∨ c.binding = some e) ∧
          Region.contents.Misnames text e l)
      fun _ m => TypesKnown isType m.types := by
  induction cs with
  | nil =>
      rw [buildVariables]
      exact Reports.congr (.pure fun _ hs => hs) fun l => by simp
  | cons c cs ih =>
      obtain ⟨hc, hrest⟩ := List.forall_mem_cons.1 hcs
      rw [buildVariables]
      refine Reports.congr (.bind (buildVariable_reports hsignatures hsymbols hc) fun built => ?_)
        fun l => by rw [List.exists_mem_cons_iff]
      cases built with
      | none => exact (ih hrest).strengthen fun _ hs => hs.2
      | some var =>
          have hcreate : BuildReports
              (fun m => (∀ var', some var = some var' → Fits m.types c.name var') ∧ TypesKnown isType m.types)
              (modifyModel (·.createVariable var)) (fun _ => False)
              fun v m => Fits m.types c.name (m.store.get v) ∧ TypesKnown isType m.types := by
            refine .modifyModel fun m hm => ⟨?_, hm.2⟩
            have hget : (m.createVariable var).2.store.get (m.createVariable var).1 = var := by
              change (m.store.create var).2.get ⟨m.store.cells.size⟩ = var
              rw [Variables.get_create_eq, if_pos rfl]
            rw [hget]
            exact hm.1 var rfl
          refine hcreate.after fun v => (addVariable_reports c v).after fun registered => ?_
          exact (ih hrest).before fun more => .pure fun _ hs => hs

/-- The equations, the components and their aliases. -/
theorem buildContents_reports :
    BuildReports (fun m => TypesKnown isType m.types) (buildContents signatures symbols text)
      (fun l =>
        (∃ eq ∈ text.initialEquations,
          Region.contents.Misnames text eq.lhs l ∨ Region.contents.Misnames text eq.rhs l) ∨
        (∃ eq ∈ text.equations,
          Region.contents.Misnames text eq.lhs l ∨ Region.contents.Misnames text eq.rhs l) ∨
        ∃ c ∈ text.components, (c.name ≠ timeName ∧ c.HeadWellFormed isType) ∧
          ∃ e, (e ∈ settingExpressions c.attributes ∨ c.binding = some e) ∧
            Region.contents.Misnames text e l)
      fun _ m => TypesKnown isType m.types := by
  have haliases (all : List (Component × VarId)) : BuildReports (fun m => TypesKnown isType m.types)
      (all.forM fun p => buildAlias p.1 p.2) (fun _ => False) fun _ m => TypesKnown isType m.types :=
    Reports.congr (.forM fun p _ => buildAlias_reports p.1 p.2) fun l => by simp
  have hinitial (m : Model) (eq : Equation) : (m.addInitialEquation eq).types = m.types :=
    (Model.KeepsGiven.learnRelation m eq).types
  have hdae (m : Model) (eq : Equation) : (m.addDaeEquation eq).types = m.types :=
    (Model.KeepsGiven.learnRelation m eq).types
  unfold buildContents
  refine .bind (buildEquations_reports hsignatures hsymbols hinitial _) fun _ => ?_
  refine .bind (buildEquations_reports hsignatures hsymbols hdae _) fun _ => ?_
  exact .before (buildVariables_reports hsignatures hsymbols fun c hc => hc) haliases

end Contents

/-! ### Models -/

/-- The faults of names in a text, in the order in which its parts are looked at. -/
theorem misnames_iff {text : Source.Model} {l : Located} : text.Misnames l ↔
    (∃ d ∈ text.types, (Domain.ofName? d.base).isSome = true ∧
      ∃ e ∈ settingExpressions d.attributes, (Region.type d.name).Misnames text e l) ∨
    (∃ d ∈ text.functions, d.params.Nodup ∧
      ∃ e, InTurn ((Region.function d.name d.params).Admits text) d.outputs e ∧
        (Region.function d.name d.params).Misnames text e l) ∨
    (∃ eq ∈ text.initialEquations,
      Region.contents.Misnames text eq.lhs l ∨ Region.contents.Misnames text eq.rhs l) ∨
    (∃ eq ∈ text.equations,
      Region.contents.Misnames text eq.lhs l ∨ Region.contents.Misnames text eq.rhs l) ∨
    ∃ c ∈ text.components, (c.name ≠ timeName ∧ c.HeadWellFormed (OffersType text.types)) ∧
      ∃ e, (e ∈ settingExpressions c.attributes ∨ c.binding = some e) ∧
        Region.contents.Misnames text e l := by
  constructor
  · rintro ⟨region, e, hlooks, hfault⟩
    cases hlooks with
    | ofType hd hbase he => exact Or.inl ⟨_, hd, hbase, e, he, hfault⟩
    | output hd hparams he => exact Or.inr (Or.inl ⟨_, hd, hparams, e, he, hfault⟩)
    | @side eq _ heq he =>
        have hsides : Region.contents.Misnames text eq.lhs l ∨ Region.contents.Misnames text eq.rhs l :=
          he.imp (fun hlhs : e = eq.lhs => hlhs ▸ hfault) fun hrhs : e = eq.rhs => hrhs ▸ hfault
        rcases heq with heq | heq
        · exact Or.inr (Or.inr (Or.inl ⟨eq, heq, hsides⟩))
        · exact Or.inr (Or.inr (Or.inr (Or.inl ⟨eq, heq, hsides⟩)))
    | own hc htime hhead he =>
        exact Or.inr (Or.inr (Or.inr (Or.inr ⟨_, hc, ⟨htime, hhead⟩, e, he, hfault⟩)))
  · have hside {eq : Source.Equation} (heq : eq ∈ text.initialEquations ∨ eq ∈ text.equations)
        (hsides : Region.contents.Misnames text eq.lhs l ∨ Region.contents.Misnames text eq.rhs l) :
        text.Misnames l := by
      rcases hsides with hfault | hfault
      · exact ⟨_, _, .side heq (Or.inl rfl), hfault⟩
      · exact ⟨_, _, .side heq (Or.inr rfl), hfault⟩
    rintro (⟨d, hd, hbase, e, he, hfault⟩ | ⟨d, hd, hparams, e, he, hfault⟩ | ⟨eq, heq, hsides⟩ |
      ⟨eq, heq, hsides⟩ | ⟨c, hc, ⟨htime, hhead⟩, e, he, hfault⟩)
    · exact ⟨_, e, .ofType hd hbase he, hfault⟩
    · exact ⟨_, e, .output hd hparams he, hfault⟩
    · exact hside (Or.inl heq) hsides
    · exact hside (Or.inr heq) hsides
    · exact ⟨_, e, .own hc htime hhead he, hfault⟩

/-- The faults of names that are reported are those of the expressions that are looked at. -/
theorem buildModel_reports (text : Source.Model) :
    BuildReports (fun m => TypesKnown (fun _ => False) m.types) (buildModel text) text.Misnames
      fun _ _ => True := by
  have hmake : Reports (fun _ => True) (make (Fresh.symbol timeName)) (fun _ => False)
      fun time _ => time.print = timeName := .make _ fun _ _ => Expr.print_symbol _ _
  have hset {isType : String → Prop} (f : Model → Model) (hf : ∀ m, (f m).types = m.types) :
      BuildReports (fun m => TypesKnown isType m.types) (modifyModel fun m => ((), f m)) (fun _ => False)
        fun _ m => TypesKnown isType m.types := .modifyModel fun m hm => by rwa [hf]
  have hsupply {isType : String → Prop} (m : Model) (supply : Supply) (hm : TypesKnown isType m.types) :
      TypesKnown isType { m with supply }.types := hm
  have htypes : BuildReports (fun m => TypesKnown (fun _ => False) m.types) (text.types.forM buildType)
      _ fun _ m => TypesKnown (OffersType text.types) m.types :=
    (buildTypes_reports text text.types).weaken fun _ draft h =>
      h.congr fun name _ => iff_of_eq (false_or (OffersType text.types name))
  have hlinks : BuildReports (fun m => TypesKnown (OffersType text.types) m.types)
      (modifyModel fun m => ((), m.resolveLinks.2)) (fun _ => False) fun _ _ => True :=
    (hset _ fun m => by rw [(Model.Updates.resolveLinks m).rest]).weaken fun _ _ _ => trivial
  refine Reports.congr ?_ fun l => misnames_iff.symm
  refine .after (BuildReports.elaborating hsupply hmake) fun time => .assume fun htime => ?_
  refine .after (hset (fun m => { m with time := some time }) fun _ => rfl) fun _ => ?_
  refine .bind htypes fun _ => ?_
  refine .after (signaturesOf_reports hsupply text.functions ∅) fun signatures => .assume fun hfound => ?_
  have hsignatures : signatures.Declares = LastDeclares text.functions :=
    declares_eq fun name => by simp [hfound name]
  refine .bind (.forM fun d _ => buildFunction_reports hsignatures d) fun _ => ?_
  refine .after (symbolsOf_reports hsupply text.components (symbolsAre_empty.insert htime)) fun symbols =>
    .assume fun hsymbols => ?_
  exact .before (buildContents_reports hsignatures hsymbols) fun _ => hlinks

end Elaboration

end FlatDae
