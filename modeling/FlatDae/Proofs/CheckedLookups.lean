/-
Module: FlatDae.Proofs.CheckedLookups
Purpose: No lookup in building a model fails. The index of a model is in step with its list of registered
  variables whatever operations there were, and all registered variables exist. So building with checked
  lookups does what building does, and meets no defect, whatever the text says and whatever faults it has.
Main exports: fetch_run, Mirrors, Mirrors.bind, buildFunctionChecked_mirrors, registerChecked_mirrors,
  buildModelChecked_mirrors, elaborateChecked_eq
-/
import FlatDae.Proofs.CheckedBuilding
import FlatDae.Proofs.DeclarationElaboration
import FlatDae.Proofs.TextRuns

namespace FlatDae

namespace Elaboration

open Source (Component Checked)

variable {α β : Type} {draft : Draft}

/-! ### Lookups -/

theorem run_bind_ok {x : CheckedBuilding α} {f : α → CheckedBuilding β} {draft' : Draft} {a : α}
    (h : x.run draft = .ok (a, draft')) : (x >>= f).run draft = (f a).run draft' := by
  rw [StateT.run_bind, h]
  rfl

/-- A check that is passed is as if it were not made. -/
theorem lift_ok_bind (a : α) (f : α → CheckedBuilding β) :
    (liftM (Except.ok a : Checked α) : CheckedBuilding α) >>= f = f a :=
  rfl

/-- The place in the index leads to the variable. -/
theorem fetch_run (hapart : draft.model.RegisteredApart) (name : String) :
    (fetch name).run draft = .ok (draft.model.findVariable? name, draft) := by
  unfold fetch
  rw [run_bind_ok (a := draft) rfl, Model.findVariable?]
  dsimp only
  cases hplace : draft.model.names[name]? with
  | none => rfl
  | some place =>
      obtain ⟨v, hv, -⟩ := (hapart.indexed name place).1 hplace
      simp only [bind, Option.bind_some, hv, if_pos (hapart.exist v (Array.mem_of_getElem? hv))]
      rfl

theorem fetchBySymbol_run (hapart : draft.model.RegisteredApart) (symbol : Expr) :
    (fetchBySymbol symbol).run draft = .ok (draft.model.findBySymbol? symbol, draft) := by
  unfold fetchBySymbol Model.findBySymbol?
  cases symbol.name? with
  | none => rfl
  | some name =>
      rw [run_bind_ok (fetch_run hapart name), Option.bind_eq_bind, Option.bind_some]
      cases draft.model.findVariable? name with
      | none => rfl
      | some v =>
          change Except.ok (if (draft.model.store.get v).symbol.same symbol then some v else none, _) =
            Except.ok ((guard ((draft.model.store.get v).symbol.same symbol = true) : Option Unit).bind
              fun _ => some v, _)
          cases (draft.model.store.get v).symbol.same symbol <;> rfl

/-- In a table of different names with their values, every name has its value. -/
theorem mapM_entry_ofList {params : List String} (hdistinct : params.Nodup) {symbols : List Expr}
    (hlength : symbols.length = params.length) :
    params.mapM (entry (Std.TreeMap.ofList (params.zip symbols))) = .ok symbols := by
  have hkeys : (params.zip symbols).map Prod.fst = params := List.map_fst_zip (Nat.le_of_eq hlength.symm)
  rw [← hkeys] at hdistinct
  have hapart : (params.zip symbols).Pairwise fun p q => ¬ compare p.1 q.1 = .eq :=
    (List.pairwise_map.1 hdistinct).imp fun hne heq => hne (Std.LawfulEqCmp.eq_of_compare heq)
  refine mapM_eq_ok_iff.2 (List.forall₂_iff_zip.2 ⟨hlength.symm, fun {param symbol} hmem => ?_⟩)
  rw [entry, Std.TreeMap.getElem?_ofList_of_mem Std.ReflCmp.compare_self hapart hmem]

/-! ### Agreement -/

/-- From a model of which `I` holds, building with checked lookups does what building does, without a
    defect. -/
def Mirrors (I : Model → Prop) (x' : CheckedBuilding α) (x : Building α) : Prop :=
  ∀ draft : Draft, I draft.model → x'.run draft = .ok (x.run draft)

namespace Mirrors

variable {I : Model → Prop} {J : α → Model → Prop} {x' : CheckedBuilding α} {x : Building α}
  {f' : α → CheckedBuilding β} {f : α → Building β}

theorem bind (h : Mirrors I x' x) (hleads : Leads I x J) (hf : ∀ a, Mirrors (J a) (f' a) (f a)) :
    Mirrors I (x' >>= f') (x >>= f) :=
  fun draft hdraft => (run_bind_ok (h draft hdraft)).trans (hf _ _ (hleads draft hdraft))

theorem pure (a : α) : Mirrors I (pure a) (pure a) := fun _ _ => rfl

theorem weaken {I' : Model → Prop} (h : Mirrors I' x' x) (himp : ∀ m, I m → I' m) : Mirrors I x' x :=
  fun draft hdraft => h draft (himp _ hdraft)

/-- What is known at the start, whatever the model, may be used. -/
theorem assume {P : Prop} (h : P → Mirrors I x' x) : Mirrors (fun m => P ∧ I m) x' x :=
  fun draft hdraft => h hdraft.1 draft hdraft.2

/-- What looks nothing up does the same. -/
theorem unchecked (x : Building α) : Mirrors I (unchecked x) x := fun _ _ => rfl

theorem forM {bs : List β} {body' : β → CheckedBuilding Unit} {body : β → Building Unit}
    (h : ∀ b, Mirrors I (body' b) (body b)) (hleads : ∀ b, Leads I (body b) fun _ => I) :
    Mirrors I (bs.forM body') (bs.forM body) := by
  induction bs with
  | nil => exact pure ()
  | cons b bs ih => exact (h b).bind (hleads b) fun _ => ih

end Mirrors

/-! ### Functions -/

theorem buildFunctionChecked_mirrors (signatures : Signatures) (d : Source.FunctionDeclaration) :
    Mirrors Model.Unaided (buildFunctionChecked signatures d) (buildFunction signatures d) := by
  unfold buildFunctionChecked buildFunction
  by_cases hlength : d.params.length = d.params.eraseDups.length
  · have hdistinct := (eraseDups_length_eq_iff d.params).1 hlength
    rw [if_neg (by simp [← hlength]), if_neg (by simp [← hlength])]
    have hnew : Leads Model.Unaided (elaborating (make (newSymbols d.params))) fun symbols m =>
        symbols.length = d.params.length ∧ m.Unaided :=
      fun draft hdraft => ⟨newSymbols_length _ _, hdraft.supplied _⟩
    refine (Mirrors.unchecked _).bind hnew fun symbols => .assume fun hsymbols => ?_
    simp only [mapM_entry_ofList hdistinct hsymbols, lift_ok_bind]
    refine (Mirrors.unchecked _).bind (elaborating_unaided _) fun outputs => ?_
    split
    · exact .pure _
    · exact .unchecked _
  · rw [if_pos (by simpa using hlength), if_pos (by simpa using hlength)]
    exact .unchecked _

/-! ### Components -/

theorem refuseVariable_run (start : Nat) (error : ModelError) :
    (refuseVariable start error).run draft =
      .ok (false, { draft with problems := draft.problems.push { problem := .refused error, start } }) :=
  rfl

/-- A variable with a free name is entered as registering does. -/
theorem enterVariable_run (hapart : draft.model.RegisteredApart) (v : VarId)
    (classification : Classification) (type : VariableType) (types : TypeRegistry) :
    (enterVariable v classification type types).run draft =
      .ok ((), { draft with model := draft.model.register v classification type types }) := by
  let prepared := draft.model.prepare v classification type types
  have hprepared : prepared.RegisteredApart := hapart.of_keeps (.prepare _ v classification type types)
  have hfetch : (fetchPartner classification.partner).run { draft with model := prepared } =
      .ok (classification.partner.bind prepared.findBySymbol?, { draft with model := prepared }) := by
    cases classification.partner with
    | none => rfl
    | some symbol => exact fetchBySymbol_run hprepared symbol
  refine (run_bind_ok (a := draft) rfl).trans ((run_bind_ok (a := ()) rfl).trans ?_)
  -- what is fetched is the partner that linking finds
  exact (run_bind_ok hfetch).trans rfl

/-- A registration looks at the name, the classification and the type in turn. -/
theorem registerChecked_run (start : Nat) (v : VarId) :
    (registerChecked start v).run draft =
      StateT.run (if draft.model.names.contains (draft.model.store.get v).name then
        refuseVariable start (.duplicateVariable (draft.model.store.get v).name)
      else match classify draft.model.store (draft.model.store.get v) draft.model.relations with
      | .error error => refuseVariable start error
      | .ok classification =>
        match draft.model.types.assign (draft.model.store.get v) with
        | .error error => refuseVariable start error
        | .ok (type, types) => do
          enterVariable v classification type types
          return true) draft :=
  rfl

theorem registerChecked_mirrors (start : Nat) (v : VarId) :
    Mirrors Model.RegisteredApart (registerChecked start v) (attempt start (Model.addVariable v)) := by
  intro draft hapart
  rw [registerChecked_run, Builds.attempt_run, Model.addVariable_run]
  by_cases htaken : draft.model.names.contains (draft.model.store.get v).name
  · simp only [htaken, if_true]
    exact refuseVariable_run start _
  · simp only [htaken, if_false, Bool.false_eq_true]
    cases classify draft.model.store (draft.model.store.get v) draft.model.relations with
    | error error => exact refuseVariable_run start _
    | ok classification =>
        simp only
        cases draft.model.types.assign (draft.model.store.get v) with
        | error error => exact refuseVariable_run start _
        | ok assigned =>
            exact run_bind_ok (enterVariable_run hapart v classification assigned.1 assigned.2)

section Contents

variable {signatures : Signatures} {symbols : Symbols}

theorem buildVariablesChecked_mirrors (cs : List Component) :
    Mirrors Model.Unaided (buildVariablesChecked signatures symbols cs)
      (buildVariables signatures symbols cs) := by
  induction cs with
  | nil => exact .pure _
  | cons c cs ih =>
      unfold buildVariablesChecked buildVariables
      refine (Mirrors.unchecked _).bind (buildVariable_unaided c) fun built => ?_
      split
      · exact .assume fun _ => ih
      · rename_i var
        refine .assume fun hvar => ?_
        refine (Mirrors.unchecked _).bind (createVariable_unaided var) fun v => ?_
        have hregister : Mirrors (fun m' => ∃ m : Model, m.Unaided ∧ (v, m') = m.createVariable var)
            (registerChecked c.start v) (attempt c.start (Model.addVariable v)) := by
          refine (registerChecked_mirrors c.start v).weaken ?_
          rintro _ ⟨m, hm, heq⟩
          obtain ⟨rfl, rfl⟩ := Prod.mk.inj heq
          exact hm.registeredApart.of_keeps (.create m var)
        refine hregister.bind (addVariable_unaided (hvar var rfl) c.start v) fun registered => ?_
        exact ih.bind (buildVariables_unaided cs) fun more => .pure _

theorem buildAliasChecked_mirrors (c : Component) (v : VarId) :
    Mirrors Model.Unaided (buildAliasChecked c v) (buildAlias c v) := by
  unfold buildAliasChecked buildAlias
  cases c.aliasOf with
  | none => exact .pure _
  | some clause =>
      intro draft hdraft
      simp only
      rw [run_bind_ok (fetch_run hdraft.registeredApart clause.target)]
      simp only [StateT.run_bind, StateT.run_get, pure_bind]
      cases draft.model.findVariable? clause.target with
      | none => rfl
      | some target =>
          simp only
          split <;> rfl

theorem buildContentsChecked_mirrors (text : Source.Model) :
    Mirrors Model.Unaided (buildContentsChecked signatures symbols text)
      (buildContents signatures symbols text) := by
  unfold buildContentsChecked buildContents
  refine (Mirrors.unchecked _).bind
    (buildEquations_unaided (fun _ eq hm => hm.addInitialEquation eq) _) fun _ => ?_
  refine (Mirrors.unchecked _).bind
    (buildEquations_unaided (fun _ eq hm => hm.addDaeEquation eq) _) fun _ => ?_
  refine (buildVariablesChecked_mirrors _).bind (buildVariables_unaided _) fun registered => ?_
  exact .forM (fun p => buildAliasChecked_mirrors p.1 p.2) fun p => buildAlias_unaided p.1 p.2

end Contents

/-! ### Links -/

/-- The sides of a relation are found as resolving finds them. -/
theorem linkSides_eq_resolveLink (m : Model) (r : DerivativeRelation) :
    m.linkSides (m.findBySymbol? r.derivative) (m.findBySymbol? r.differentiated) = (m.resolveLink r).2 := by
  unfold Model.resolveLink
  cases m.findBySymbol? r.derivative with
  | none => rfl
  | some derivative =>
      cases m.findBySymbol? r.differentiated with
      | none => rfl
      | some differentiated =>
          simp only [Model.linkSides]
          split
          · rfl
          · split <;> rfl

theorem resolveLinkChecked_run (hapart : draft.model.RegisteredApart) (r : DerivativeRelation) :
    (resolveLinkChecked r).run draft =
      .ok ((), { draft with model := (draft.model.resolveLink r).2 }) := by
  unfold resolveLinkChecked
  rw [run_bind_ok (fetchBySymbol_run hapart r.derivative),
    run_bind_ok (fetchBySymbol_run hapart r.differentiated), ← linkSides_eq_resolveLink]
  rfl

/-- The pass over relations, step by step. -/
theorem forM_resolveLinkChecked_run (relations : List DerivativeRelation) {draft : Draft}
    (hapart : draft.model.RegisteredApart) :
    (relations.forM resolveLinkChecked).run draft =
      .ok ((), { draft with model := (draft.model.linkPass relations).2 }) := by
  induction relations generalizing draft with
  | nil => rfl
  | cons r relations ih =>
      exact (run_bind_ok (resolveLinkChecked_run hapart r)).trans
        (ih (hapart.of_keeps (.of_updates (.resolveLink _ r))))

theorem resolveLinksChecked_mirrors :
    Mirrors Model.Unaided resolveLinksChecked (modifyModel fun m => ((), m.resolveLinks.2)) := by
  intro draft hdraft
  have hrun := forM_resolveLinkChecked_run draft.model.relations.toList hdraft.registeredApart
  rw [← Model.resolveLinks_eq] at hrun
  exact hrun

/-! ### Models -/

theorem buildModelChecked_mirrors (text : Source.Model) :
    Mirrors Model.Unaided (buildModelChecked text) (buildModel text) := by
  unfold buildModelChecked buildModel
  refine (Mirrors.unchecked _).bind (elaborating_unaided _) fun time => ?_
  have htime : Leads Model.Unaided (modifyModel fun m => ((), { m with time := some time }))
      fun _ => Model.Unaided :=
    .modifyModel fun m hm => hm.withTime time
  refine (Mirrors.unchecked _).bind htime fun _ => ?_
  refine (Mirrors.unchecked _).bind (.forM buildType_unaided) fun _ => ?_
  refine (Mirrors.unchecked _).bind (signaturesOf_unaided _ _)
    fun signatures => ?_
  refine (Mirrors.forM (buildFunctionChecked_mirrors signatures) (buildFunction_unaided signatures)).bind
    (.forM (buildFunction_unaided signatures)) fun _ => ?_
  refine (Mirrors.unchecked _).bind (symbolsOf_unaided _ _) fun symbols => ?_
  exact (buildContentsChecked_mirrors text).bind (buildContents_unaided _ _ _) fun _ =>
    resolveLinksChecked_mirrors

/-- Building a model with checked lookups meets no defect, whatever the text says, and has the result that
    building has. -/
theorem elaborateChecked_eq (text : Source.Model) : elaborateChecked text = .ok (elaborateModel text) := by
  have hrun := buildModelChecked_mirrors text {} .start
  unfold elaborateChecked
  change (StateT.run (buildModelChecked text) {} >>= _) = _
  rw [hrun]
  rfl

end Elaboration

end FlatDae
