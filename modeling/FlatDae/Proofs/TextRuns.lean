/-
Module: FlatDae.Proofs.TextRuns
Purpose: The model of a text as the end of a run. Whatever the text says, each part of building is a run
  of operations that makes no derivative link by hand, and the pass over all relations is the last of
  them.
Main exports: Model.Unaided, Leads, Leads.bind, Leads.forM, buildType_leads, buildVariable_leads,
  buildContents_unaided, elaborateModel_unaided
-/
import FlatDae.Proofs.LinkedModels
import FlatDae.Proofs.ModelTranslation

namespace FlatDae

/-! ### Models without links by hand -/

/-- The model comes about by operations none of which links a variable by hand. -/
abbrev Model.Unaided (m : Model) : Prop := m.Reachable fun _ op => ¬ op.LinksByHand

/-- The variable is as it is declared: it has no kind and no links. -/
structure Variable.AsDeclared (var : Variable) : Prop where
  kind : var.kind = none
  derivative : var.derivative = none
  differentiated : var.differentiated = none

/-- A variable that was just made exists. -/
theorem Model.index_createVariable_lt (m : Model) (var : Variable) :
    (m.createVariable var).1.index < (m.createVariable var).2.store.cells.size := by
  change m.store.cells.size < (m.store.cells.push var).size
  rw [Array.size_push]
  exact Nat.lt_succ_self _

namespace Model.Unaided

variable {m : Model} (h : m.Unaided)
include h

theorem supplied (supply : Supply) : ({ m with supply } : Model).Unaided :=
  .step (.makeNodes supply) h trivial not_false

theorem withTime (symbol : Expr) : ({ m with time := some symbol } : Model).Unaided :=
  .step (.setTime symbol) h trivial not_false

theorem addInitialEquation (eq : Equation) : (m.addInitialEquation eq).Unaided :=
  .step (.addInitialEquation eq) h trivial not_false

theorem addDaeEquation (eq : Equation) : (m.addDaeEquation eq).Unaided :=
  .step (.addDaeEquation eq) h trivial not_false

/-- A variable as it is declared is made and then registered, or refused. -/
theorem declared {var : Variable} (hvar : var.AsDeclared) :
    ((Model.addVariable (m.createVariable var).1).after (m.createVariable var).2).Unaided := by
  have hmade : (m.createVariable var).2.Unaided :=
    .step (.create var) h hvar.kind fun hhand => hhand.elim (· hvar.derivative) (· hvar.differentiated)
  exact .step (.addVariable (m.createVariable var).1) hmade (m.index_createVariable_lt var) not_false

end Model.Unaided

namespace Elaboration

open Source (Component)

/-! ### Triples -/

/-- Wherever the action starts from a model of which `I` holds, `J` holds of its result and of the model
    that it leads to, faults or not. -/
def Leads {α : Type} (I : Model → Prop) (x : Building α) (J : α → Model → Prop) : Prop :=
  ∀ draft : Draft, I draft.model → J (x.run draft).1 (x.run draft).2.model

namespace Leads

variable {α β : Type} {I : Model → Prop} {x : Building α} {f : α → Building β}
  {J : α → Model → Prop} {K : β → Model → Prop}

theorem bind (h : Leads I x J) (hf : ∀ a, Leads (J a) (f a) K) : Leads I (x >>= f) K :=
  fun draft hdraft => hf _ (x.run draft).2 (h draft hdraft)

theorem pure {a : α} (h : ∀ m, I m → J a m) : Leads I (Pure.pure a : Building α) J :=
  fun draft hdraft => h draft.model hdraft

/-- What is known at the start, whatever the model, may be used. -/
theorem assume {P : Prop} (h : P → Leads I x J) : Leads (fun m => P ∧ I m) x J :=
  fun draft hdraft => h hdraft.1 draft hdraft.2

/-- The result need not be looked at. -/
theorem discard {I' : Model → Prop} (h : Leads I x fun _ => I') :
    Leads I (Functor.discard x) fun _ => I' :=
  fun draft hdraft => h draft hdraft

/-- What is done depends on the model as it is. -/
theorem get {g : Draft → Building α} (h : ∀ start, Leads I (g start) J) :
    Leads I (MonadState.get >>= g) J :=
  fun draft hdraft => h draft draft hdraft

/-- What every member of a list keeps, all of them keep. -/
theorem forM {bs : List β} {body : β → Building Unit} (h : ∀ b, Leads I (body b) fun _ => I) :
    Leads I (bs.forM body) fun _ => I := by
  induction bs with
  | nil => exact pure fun _ hm => hm
  | cons b bs ih => exact (h b).bind fun _ => ih

theorem modifyModel {f : Model → α × Model} (h : ∀ m, I m → J (f m).1 (f m).2) :
    Leads I (Elaboration.modifyModel f) J :=
  fun draft hdraft => h draft.model hdraft

/-- Building expressions changes nothing of a model but its supply. -/
theorem elaborating (hI : ∀ m supply, I m → I { m with supply }) (y : Elaborating α) :
    Leads I (Elaboration.elaborating y) fun _ => I :=
  fun _ hdraft => hI _ _ hdraft

/-- The model that an action leaves behind stays, whether it succeeds or is reported. -/
theorem attempt {start : Nat} {action : ModelAction Unit} {I' : Model → Prop}
    (h : ∀ m, I m → I' (action.after m)) :
    Leads I (Elaboration.attempt start action) fun _ => I' := by
  intro draft hdraft
  have hafter := h draft.model hdraft
  unfold Action.after at hafter
  rw [Builds.attempt_run]
  cases hrun : action.run draft.model with
  | ok a m =>
      rw [hrun] at hafter
      exact hafter
  | error error m =>
      rw [hrun] at hafter
      exact hafter

end Leads

/-! ### Parts of a text

What the parts do to a model besides making nodes is left to a hypothesis of each lemma. -/

section Parts

variable {I : Model → Prop} (hI : ∀ m supply, I m → I { m with supply })
include hI

theorem buildType_leads (htype : ∀ m type, I m → I ((Model.addType type).after m))
    (d : Source.TypeDeclaration) : Leads I (buildType d) fun _ => I := by
  unfold buildType
  split
  · exact .elaborating hI _
  · refine (Leads.elaborating hI _).bind fun _ => (Leads.elaborating hI _).bind fun _ => ?_
    exact .discard (.attempt fun m hm => htype m _ hm)

theorem signaturesOf_leads (ds : List Source.FunctionDeclaration) (signatures : Signatures) :
    Leads I (signaturesOf ds signatures) fun _ => I := by
  induction ds generalizing signatures with
  | nil => exact .pure fun _ hm => hm
  | cons d ds ih =>
      unfold signaturesOf
      split
      · exact (Leads.elaborating hI _).bind fun _ => ih _
      · exact ih _

theorem symbolsOf_leads (cs : List Component) (symbols : Symbols) :
    Leads I (symbolsOf cs symbols) fun _ => I := by
  induction cs generalizing symbols with
  | nil => exact .pure fun _ hm => hm
  | cons c cs ih =>
      unfold symbolsOf
      split
      · exact (Leads.elaborating hI _).bind fun _ => ih _
      · exact (Leads.elaborating hI _).bind fun _ => ih _

theorem buildEquations_leads {signatures : Signatures} {symbols : Symbols} {add : Model → Equation → Model}
    (hadd : ∀ m eq, I m → I (add m eq)) (eqs : List Source.Equation) :
    Leads I (buildEquations signatures symbols add eqs) fun _ => I := by
  induction eqs with
  | nil => exact .pure fun _ hm => hm
  | cons eq eqs ih =>
      have hequation : Leads I (buildEquation signatures symbols eq) fun _ => I := by
        unfold buildEquation
        refine (Leads.elaborating hI _).bind fun _ => (Leads.elaborating hI _).bind fun _ => ?_
        split <;> exact .pure fun _ hm => hm
      unfold buildEquations
      refine hequation.bind fun built => ?_
      split
      · exact (Leads.modifyModel fun m hm => hadd m _ hm).bind fun _ => ih
      · exact ih

/-- What a component is built into, if anything, is as it is declared. -/
theorem buildVariable_leads {signatures : Signatures} {symbols : Symbols} (c : Component) :
    Leads I (buildVariable signatures symbols c) fun built m =>
      (∀ var, built = some var → var.AsDeclared) ∧ I m := by
  have hnone {m : Model} (hm : I m) :
      (∀ var, (none : Option Variable) = some var → var.AsDeclared) ∧ I m :=
    ⟨fun _ hvar => (nomatch hvar), hm⟩
  unfold buildVariable
  split
  · exact .pure fun _ => hnone
  split
  · exact .pure fun _ => hnone
  refine .get fun start => ?_
  split
  · exact fun _ hdraft => hnone (hI _ _ hdraft)
  rename_i declared hdeclared
  obtain ⟨_, _, _, _, rfl, -⟩ := declaredVariable_eq_ok hdeclared
  unfold completeVariable
  refine (Leads.elaborating hI _).bind fun settings => ?_
  rw [foldl_withAttribute_var_eq]
  split
  · refine .pure fun m hm => ⟨?_, hm⟩
    rintro _ ⟨⟩
    exact ⟨rfl, rfl, rfl⟩
  · refine (Leads.elaborating hI _).bind fun value => ?_
    split
    · exact .pure fun _ => hnone
    · refine .pure fun m hm => ⟨?_, hm⟩
      rintro _ ⟨⟩
      exact ⟨rfl, rfl, rfl⟩

end Parts

/-! ### Building without links by hand -/

theorem elaborating_unaided {α : Type} (y : Elaborating α) :
    Leads Model.Unaided (elaborating y) fun _ => Model.Unaided :=
  .elaborating (fun _ supply hm => hm.supplied supply) y

theorem buildType_unaided (d : Source.TypeDeclaration) :
    Leads Model.Unaided (buildType d) fun _ => Model.Unaided :=
  buildType_leads (fun _ supply hm => hm.supplied supply)
    (fun _ type hm => .step (.addType type) hm trivial not_false) d

theorem signaturesOf_unaided (ds : List Source.FunctionDeclaration) (signatures : Signatures) :
    Leads Model.Unaided (signaturesOf ds signatures) fun _ => Model.Unaided :=
  signaturesOf_leads (fun _ supply hm => hm.supplied supply) ds signatures

theorem buildFunction_unaided (signatures : Signatures) (d : Source.FunctionDeclaration) :
    Leads Model.Unaided (buildFunction signatures d) fun _ => Model.Unaided := by
  unfold buildFunction
  split
  · exact elaborating_unaided _
  · refine (elaborating_unaided _).bind fun inputs => (elaborating_unaided _).bind fun outputs => ?_
    split
    · exact .pure fun _ hm => hm
    · exact .modifyModel fun m hm => .step (.setFunction _) hm trivial not_false

theorem symbolsOf_unaided (cs : List Component) (symbols : Symbols) :
    Leads Model.Unaided (symbolsOf cs symbols) fun _ => Model.Unaided :=
  symbolsOf_leads (fun _ supply hm => hm.supplied supply) cs symbols

section Contents

variable {signatures : Signatures} {symbols : Symbols}

theorem buildEquations_unaided {add : Model → Equation → Model}
    (hadd : ∀ m eq, m.Unaided → (add m eq).Unaided) (eqs : List Source.Equation) :
    Leads Model.Unaided (buildEquations signatures symbols add eqs) fun _ => Model.Unaided :=
  buildEquations_leads (fun _ supply hm => hm.supplied supply) hadd eqs

theorem buildVariable_unaided (c : Component) :
    Leads Model.Unaided (buildVariable signatures symbols c) fun built m =>
      (∀ var, built = some var → var.AsDeclared) ∧ m.Unaided :=
  buildVariable_leads (fun _ supply hm => hm.supplied supply) c

/-- A variable that was just made. -/
theorem createVariable_unaided (var : Variable) :
    Leads Model.Unaided (modifyModel (·.createVariable var)) fun v m' =>
      ∃ m : Model, m.Unaided ∧ (v, m') = m.createVariable var :=
  .modifyModel fun m hm => ⟨m, hm, rfl⟩

/-- A variable that was just made is registered or refused. -/
theorem addVariable_unaided {var : Variable} (hvar : var.AsDeclared) (start : Nat) (v : VarId) :
    Leads (fun m' => ∃ m : Model, m.Unaided ∧ (v, m') = m.createVariable var)
      (attempt start (Model.addVariable v)) fun _ => Model.Unaided := by
  refine .attempt ?_
  rintro _ ⟨m, hm, heq⟩
  obtain ⟨rfl, rfl⟩ := Prod.mk.inj heq
  exact hm.declared hvar

theorem buildVariables_unaided (cs : List Component) :
    Leads Model.Unaided (buildVariables signatures symbols cs) fun _ => Model.Unaided := by
  induction cs with
  | nil => exact .pure fun _ hm => hm
  | cons c cs ih =>
      unfold buildVariables
      refine (buildVariable_unaided c).bind fun built => ?_
      split
      · exact .assume fun _ => ih
      · rename_i var
        refine .assume fun hvar => ?_
        refine (createVariable_unaided var).bind fun v => ?_
        have hregister := addVariable_unaided (hvar var rfl) c.start v
        refine hregister.bind fun registered => ih.bind fun more => .pure fun _ hm => hm

theorem buildAlias_unaided (c : Component) (v : VarId) :
    Leads Model.Unaided (buildAlias c v) fun _ => Model.Unaided := by
  unfold buildAlias
  split
  · exact .pure fun _ hm => hm
  · refine .get fun start => ?_
    split
    · exact elaborating_unaided _
    · split
      · exact elaborating_unaided _
      · exact .modifyModel fun m hm => .step (.setAlias v _ _) hm trivial not_false

end Contents

theorem buildContents_unaided (signatures : Signatures) (symbols : Symbols) (text : Source.Model) :
    Leads Model.Unaided (buildContents signatures symbols text) fun _ => Model.Unaided := by
  unfold buildContents
  refine (buildEquations_unaided (fun _ eq hm => hm.addInitialEquation eq) _).bind fun _ => ?_
  refine (buildEquations_unaided (fun _ eq hm => hm.addDaeEquation eq) _).bind fun _ => ?_
  exact (buildVariables_unaided _).bind fun registered => .forM fun p => buildAlias_unaided p.1 p.2

/-- A text is built without links by hand, up to the pass over all relations. -/
theorem buildModel_unaided (text : Source.Model) :
    Leads Model.Unaided (buildModel text) fun _ m => ∃ before : Model, before.Unaided ∧
      m = before.resolveLinks.2 := by
  unfold buildModel
  refine (elaborating_unaided _).bind fun time => ?_
  have htime : Leads Model.Unaided (modifyModel fun m => ((), { m with time := some time }))
      fun _ => Model.Unaided :=
    .modifyModel fun m hm => hm.withTime time
  refine htime.bind fun _ => (Leads.forM buildType_unaided).bind fun _ => ?_
  refine (signaturesOf_unaided _ _).bind fun signatures => ?_
  refine (Leads.forM (buildFunction_unaided signatures)).bind fun _ => ?_
  refine (symbolsOf_unaided _ _).bind fun symbols => (buildContents_unaided _ _ _).bind fun _ => ?_
  exact .modifyModel fun m hm => ⟨m, hm, rfl⟩

/-- A model of a text is the result of a pass over all relations in a model that comes about without
    links by hand. -/
theorem elaborateModel_unaided {text : Source.Model} {m : Model} (h : elaborateModel text = .ok m) :
    ∃ before : Model, before.Unaided ∧ m = before.resolveLinks.2 := by
  obtain ⟨-, hrun⟩ := elaborateModel_eq_ok h
  rw [← hrun]
  exact buildModel_unaided text {} .start

end Elaboration

end FlatDae
