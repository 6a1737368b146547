/-
Module: FlatDae.Proofs.RegisteredKinds
Purpose: What links do to kinds. The kind of a variable without links of its own follows from its
  declaration and from the relations of the model, whatever else is registered. Once all registered
  variables have these kinds, the links that registration and the last pass make agree with them: links
  are made along relations, and the kinds on both sides of a relation are decided by it.
Main exports: VariableKind.declared, Variable.kindFrom, classify_unlinked, Model.Relinks, Model.Kinded,
  Model.Kinded.register, Model.Kinded.resolveLinks, Operation.KeepsKinds, Model.ReachedBy
-/
import FlatDae.Proofs.RegistrationOrder

namespace FlatDae

/-! ### Kinds by declaration -/

namespace VariableKind

/-- The kind of a continuous variable by its part in derivative relations. Being a derivative counts
    before having one. -/
def ofRole (causality : Causality) (isDerivative isDifferentiated : Bool) : VariableKind :=
  if isDerivative then .derivative
  else if isDifferentiated then .differentiated
  else if causality == .output then .output
  else .algebraic

/-- The kind that follows from what is declared and from the part in derivative relations. -/
def declared (domain : Domain) (variability : Variability) (causality : Causality)
    (dependent isDerivative isDifferentiated : Bool) : VariableKind :=
  match variability, causality with
  | .constant, _ => .constant domain
  | .parameter, _ => .parameter domain dependent
  | .discrete, .input => .input domain
  | .discrete, _ => .discrete domain
  | .continuous, .input => .input domain
  | .continuous, causality => .ofRole causality isDerivative isDifferentiated

/-- What can be linked has its kind by its part in derivative relations. -/
theorem declared_of_linkable {domain : Domain} {variability : Variability} {causality : Causality}
    {dependent isDerivative isDifferentiated : Bool}
    (h : (declared domain variability causality dependent isDerivative isDifferentiated).isLinkable =
      true) :
    declared domain variability causality dependent isDerivative isDifferentiated =
      .ofRole causality isDerivative isDifferentiated := by
  cases variability with
  | constant => cases h
  | parameter => cases dependent <;> cases h
  | discrete => cases causality <;> cases h
  | continuous =>
      cases causality with
      | input => cases h
      | output => rfl
      | internal => rfl

end VariableKind

namespace Variable

/-- The kind that follows from a variable and the relations, whatever links it has. -/
def kindFrom (relations : Array DerivativeRelation) (var : Variable) : VariableKind :=
  .declared var.domain var.variability var.causality (isDependent var)
    (relations.any (·.derivative.same var.symbol)) (relations.any (·.differentiated.same var.symbol))

variable {relations : Array DerivativeRelation} {var : Variable} {relation : DerivativeRelation}

/-- A relation decides the kind of its derivative. -/
theorem kindFrom_of_derivative (hlinkable : (var.kindFrom relations).isLinkable = true)
    (hrelation : relation ∈ relations) (hsame : relation.derivative.same var.symbol = true) :
    var.kindFrom relations = .derivative := by
  have hany : relations.any (·.derivative.same var.symbol) = true :=
    Array.any_eq_true'.2 ⟨relation, hrelation, hsame⟩
  rw [kindFrom, VariableKind.declared_of_linkable hlinkable, VariableKind.ofRole, if_pos hany]

/-- A relation decides the kind of what is differentiated, which may be a derivative in turn. -/
theorem kindFrom_of_differentiated (hlinkable : (var.kindFrom relations).isLinkable = true)
    (hrelation : relation ∈ relations) (hsame : relation.differentiated.same var.symbol = true) :
    (var.kindFrom relations).isUnlinked = false := by
  have hany : relations.any (·.differentiated.same var.symbol) = true :=
    Array.any_eq_true'.2 ⟨relation, hrelation, hsame⟩
  rw [kindFrom, VariableKind.declared_of_linkable hlinkable, VariableKind.ofRole, if_pos hany]
  split <;> rfl

end Variable

/-- Without links of its own the role of a variable is that in the relations. -/
theorem derivativeRole_unlinked (store : Variables) (relations : Array DerivativeRelation)
    {var : Variable} (hderivative : var.derivative = none)
    (hdifferentiated : var.differentiated = none) :
    match derivativeRole store var relations with
    | .derivativeOf x => relations.any (·.derivative.same var.symbol) = true ∧
        ∃ r ∈ relations, r.derivative.same var.symbol = true ∧ r.differentiated = x
    | .differentiatedBy d => relations.any (·.derivative.same var.symbol) = false ∧
        relations.any (·.differentiated.same var.symbol) = true ∧
        ∃ r ∈ relations, r.differentiated.same var.symbol = true ∧ r.derivative = d
    | .none => relations.any (·.derivative.same var.symbol) = false ∧
        relations.any (·.differentiated.same var.symbol) = false := by
  have hsome {p : DerivativeRelation → Bool} {relation : DerivativeRelation}
      (hfind : relations.find? p = some relation) :
      relation ∈ relations ∧ p relation = true ∧ relations.any p = true := by
    have hmem : relation ∈ relations := Array.mem_of_find?_eq_some hfind
    have hp : p relation = true := Array.find?_some hfind
    exact ⟨hmem, hp, Array.any_eq_true'.2 ⟨relation, hmem, hp⟩⟩
  have hnone {p : DerivativeRelation → Bool} (hfind : relations.find? p = none) :
      relations.any p = false := by
    rw [Array.any_eq_false']
    exact Array.find?_eq_none.1 hfind
  unfold derivativeRole
  rw [hderivative, hdifferentiated]
  simp only
  cases hfind : relations.find? (·.derivative.same var.symbol) with
  | some relation =>
      obtain ⟨hmem, hsame, hany⟩ := hsome hfind
      exact ⟨hany, relation, hmem, hsame, rfl⟩
  | none =>
      cases hfind' : relations.find? (·.differentiated.same var.symbol) with
      | some relation =>
          obtain ⟨hmem, hsame, hany⟩ := hsome hfind'
          exact ⟨hnone hfind, hany, relation, hmem, hsame, rfl⟩
      | none => exact ⟨hnone hfind, hnone hfind'⟩

/-- The partner of a classification is on the other side of a relation of the variable, which has the
    kind that the relation gives it. -/
def Classification.Follows (classification : Classification) (relations : Array DerivativeRelation)
    (symbol : Expr) : Prop :=
  ∀ partner, classification.partner = some partner →
    (classification.kind = .derivative ∧
      ∃ r ∈ relations, r.derivative.same symbol = true ∧ r.differentiated = partner) ∨
    (classification.kind = .differentiated ∧
      ∃ r ∈ relations, r.differentiated.same symbol = true ∧ r.derivative = partner)

/-- Without links of its own a variable is classified by its declaration and the relations. -/
theorem classify_unlinked {store : Variables} {var : Variable} {relations : Array DerivativeRelation}
    {classification : Classification} (hderivative : var.derivative = none)
    (hdifferentiated : var.differentiated = none)
    (h : classify store var relations = .ok classification) :
    classification.kind = var.kindFrom relations ∧ classification.Follows relations var.symbol := by
  have hrole := derivativeRole_unlinked store relations hderivative hdifferentiated
  unfold classify at h
  unfold Variable.kindFrom
  split at h
  case h_6 hvariability hdomain hcausality =>
    rw [hvariability, VariableKind.declared, ← Except.ok.inj h]
    · cases hcase : derivativeRole store var relations with
      | derivativeOf x =>
          rw [hcase] at hrole
          obtain ⟨hany, hrelation⟩ := hrole
          refine ⟨by rw [VariableKind.ofRole, if_pos hany], fun partner hpartner => Or.inl ⟨rfl, ?_⟩⟩
          rw [← Option.some.inj hpartner]
          exact hrelation
      | differentiatedBy d =>
          rw [hcase] at hrole
          obtain ⟨hnot, hany, hrelation⟩ := hrole
          refine ⟨?_, fun partner hpartner => Or.inr ⟨rfl, ?_⟩⟩
          · rw [VariableKind.ofRole, hnot, if_neg Bool.false_ne_true, if_pos hany]
          · rw [← Option.some.inj hpartner]
            exact hrelation
      | none =>
          rw [hcase] at hrole
          refine ⟨?_, fun partner hpartner => nomatch hpartner⟩
          rw [VariableKind.ofRole, hrole.1, hrole.2, if_neg Bool.false_ne_true,
            if_neg Bool.false_ne_true]
    · exact hcausality
  case h_7 => cases h
  -- the other kinds are not left to relations
  all_goals
    rw [← Except.ok.inj h]
    refine ⟨by simp [VariableKind.declared, *], fun partner hpartner => nomatch hpartner⟩

/-! ### Links and nothing else -/

/-- The variables differ in their derivative links only. -/
def Variable.Relinked (a b : Variable) : Prop :=
  ∃ derivative differentiated, b = { a with derivative, differentiated }

theorem Variable.Relinked.refl (a : Variable) : a.Relinked a := ⟨a.derivative, a.differentiated, rfl⟩

theorem Variable.Relinked.trans {a b c : Variable} (h : a.Relinked b) (h' : b.Relinked c) :
    a.Relinked c := by
  obtain ⟨_, _, rfl⟩ := h
  obtain ⟨_, _, rfl⟩ := h'
  exact ⟨_, _, rfl⟩

/-- A link decides the kind of no variable whose kind is decided. -/
theorem Model.withLinkedKind_of_decided {var : Variable} {kind linked : VariableKind}
    (hkind : var.kind = some kind) (hdecided : kind.isUnlinked = false) :
    withLinkedKind linked var = var := by
  unfold withLinkedKind
  rw [hkind]
  simp [hdecided]

namespace Model

/-- Nothing but derivative links was changed. -/
structure Relinks (m m' : Model) : Prop where
  size : m'.store.cells.size = m.store.cells.size
  cells : ∀ v : VarId, (m.store.get v).Relinked (m'.store.get v)
  rest : m' = { m with store := m'.store }

namespace Relinks

theorem refl (m : Model) : Relinks m m := ⟨rfl, fun _ => .refl _, rfl⟩

theorem trans {m m' m'' : Model} (h : Relinks m m') (h' : Relinks m' m'') : Relinks m m'' where
  size := h'.size.trans h.size
  cells := fun v => (h.cells v).trans (h'.cells v)
  rest := by
    rw [h'.rest]
    rw [h.rest]

theorem modify (m : Model) (v : VarId) {f : Variable → Variable}
    (hf : (m.store.get v).Relinked (f (m.store.get v))) : Relinks m (m.modifyVariable v f) where
  size := Variables.size_modify _ _ _
  cells := by
    intro w
    simp only [modifyVariable, Variables.get_modify]
    split
    · rename_i hw
      rw [← hw.1]
      exact hf
    · exact .refl _
  rest := rfl

/-- A link between variables whose kinds are decided. -/
theorem link {m : Model} {derivative differentiated : VarId} {kind kind' : VariableKind}
    (hkind : (m.store.get derivative).kind = some kind) (hdecided : kind.isUnlinked = false)
    (hkind' : (m.store.get differentiated).kind = some kind') (hdecided' : kind'.isUnlinked = false) :
    Relinks m (m.link derivative differentiated) := by
  let m₁ := m.modifyVariable derivative fun d => { d with differentiated := some differentiated }
  have h₁ : Relinks m m₁ := .modify m derivative ⟨_, _, rfl⟩
  let m₂ := m₁.modifyVariable differentiated fun x => { x with derivative := some derivative }
  have h₂ : Relinks m m₂ := h₁.trans (.modify m₁ differentiated ⟨_, _, rfl⟩)
  have hkept {m' : Model} (h : Relinks m m') (v : VarId) :
      (m'.store.get v).kind = (m.store.get v).kind := by
    obtain ⟨_, _, heq⟩ := h.cells v
    rw [heq]
  let m₃ := m₂.modifyVariable derivative (withLinkedKind .derivative)
  have h₃ : Relinks m m₃ := by
    apply h₂.trans (.modify m₂ derivative _)
    rw [withLinkedKind_of_decided ((hkept h₂ derivative).trans hkind) hdecided]
    exact .refl _
  apply h₃.trans (.modify m₃ differentiated _)
  rw [withLinkedKind_of_decided ((hkept h₃ differentiated).trans hkind') hdecided']
  exact .refl _

end Relinks

/-- Every registered variable has the kind that follows from it and the relations. -/
def Kinded (m : Model) : Prop :=
  ∀ v ∈ m.registered, (m.store.get v).kind = some ((m.store.get v).kindFrom m.relations)

theorem Kinded.of_relinks {m m' : Model} (h : m.Kinded) (hrelinks : Relinks m m') : m'.Kinded := by
  intro v hv
  rw [hrelinks.rest] at hv ⊢
  obtain ⟨_, _, heq⟩ := hrelinks.cells v
  simp only [heq]
  exact h v hv

/-- What is found by a symbol is registered and has that symbol. -/
theorem findBySymbol?_eq_some {m : Model} {symbol : Expr} {v : VarId}
    (h : m.findBySymbol? symbol = some v) :
    v ∈ m.registered ∧ symbol.same (m.store.get v).symbol = true := by
  unfold findBySymbol? at h
  obtain ⟨name, -, h⟩ := Option.bind_eq_some_iff.1 h
  obtain ⟨w, hfind, h⟩ := Option.bind_eq_some_iff.1 h
  by_cases hsame : (m.store.get w).symbol.same symbol = true
  · simp only [guard, hsame, if_true] at h
    obtain rfl := Option.some.inj h
    refine ⟨mem_registered_of_findVariable? hfind, ?_⟩
    rw [Expr.same, beq_iff_eq] at hsame ⊢
    exact hsame.symm
  · simp only [guard, hsame] at h
    cases h

namespace Kinded

variable {m : Model} (h : m.Kinded) {relation : DerivativeRelation} (hrelation : relation ∈ m.relations)
  {v : VarId}
include h hrelation

/-- A registered variable that can be linked as the derivative of a relation has the kind for it. -/
theorem derivative (hfind : m.findBySymbol? relation.derivative = some v)
    (hlinkable : m.isLinkable v = true) : (m.store.get v).kind = some .derivative := by
  obtain ⟨hv, hsame⟩ := findBySymbol?_eq_some hfind
  rw [isLinkable, h v hv] at hlinkable
  rw [h v hv, Variable.kindFrom_of_derivative hlinkable hrelation hsame]

/-- A registered variable that can be linked as the differentiated one has a kind that is decided. -/
theorem differentiated (hfind : m.findBySymbol? relation.differentiated = some v)
    (hlinkable : m.isLinkable v = true) :
    ∃ kind, (m.store.get v).kind = some kind ∧ kind.isUnlinked = false := by
  obtain ⟨hv, hsame⟩ := findBySymbol?_eq_some hfind
  rw [isLinkable, h v hv] at hlinkable
  exact ⟨_, h v hv, Variable.kindFrom_of_differentiated hlinkable hrelation hsame⟩

/-- The link of a relation decides no kind. -/
theorem resolveLink : Relinks m (m.resolveLink relation).2 := by
  unfold Model.resolveLink
  split
  · rename_i derivative differentiated hderivative hdifferentiated
    split
    · exact .refl m
    · rename_i hlinkable
      simp only [Bool.or_eq_true, Bool.not_eq_true', not_or, Bool.not_eq_false] at hlinkable
      split
      · exact .refl m
      · obtain ⟨kind, hkind, hdecided⟩ := h.differentiated hrelation hdifferentiated hlinkable.2
        exact .link (h.derivative hrelation hderivative hlinkable.1) rfl hkind hdecided
  · exact .refl m

end Kinded

/-- The links of some of the relations decide no kind. -/
theorem Kinded.foldl_resolveLink {m : Model} (h : m.Kinded) (relations : List DerivativeRelation)
    (hmem : ∀ r ∈ relations, r ∈ m.relations) (linked : Nat) {m' : Model} (hrelinks : Relinks m m') :
    Relinks m (relations.foldl (fun (linked, m) relation =>
      let (new, m) := m.resolveLink relation
      (linked + new, m)) (linked, m')).2 := by
  induction relations generalizing linked m' with
  | nil => exact hrelinks
  | cons relation relations ih =>
      obtain ⟨hfirst, hrest⟩ := List.forall_mem_cons.1 hmem
      have hrelation : relation ∈ m'.relations := by
        rw [hrelinks.rest]
        exact hfirst
      exact ih hrest _ (hrelinks.trans ((h.of_relinks hrelinks).resolveLink hrelation))

/-- The links of all relations decide no kind. -/
theorem Kinded.resolveLinks {m : Model} (h : m.Kinded) : Relinks m m.resolveLinks.2 := by
  unfold Model.resolveLinks
  rw [← Array.foldl_toList]
  exact h.foldl_resolveLink m.relations.toList (fun r hr => Array.mem_toList_iff.1 hr) 0 (.refl m)

/-- Linking a variable that is classified by a relation decides no kind. -/
theorem Kinded.linkPartner {m : Model} (h : m.Kinded) {v : VarId} {classification : Classification}
    (hkind : (m.store.get v).kind = some classification.kind)
    (hfollows : classification.Follows m.relations (m.store.get v).symbol) :
    Relinks m (m.linkPartner v classification) := by
  unfold Model.linkPartner
  split
  · exact .refl m
  · rename_i other hother
    obtain ⟨hfind, hlinkable⟩ := Option.filter_eq_some_iff.1 hother
    obtain ⟨partner, hpartner, hfind⟩ := Option.bind_eq_some_iff.1 hfind
    rcases hfollows partner hpartner with ⟨hderivative, r, hr, -, rfl⟩ | ⟨hdifferentiated, r, hr, -, rfl⟩
    · rw [hderivative] at hkind ⊢
      obtain ⟨kind, hother, hdecided⟩ := h.differentiated hr hfind hlinkable
      exact .link hkind rfl hother hdecided
    · rw [hdifferentiated] at hkind ⊢
      exact .link (h.derivative hr hfind hlinkable) rfl hkind rfl

/-- A variable that is registered has a new name, a classification and a type. -/
theorem addVariable_eq_ok {m m' : Model} {v : VarId} (h : (addVariable v).run m = .ok () m') :
    ∃ classification type types, m.findVariable? (m.store.get v).name = none ∧
      classify m.store (m.store.get v) m.relations = .ok classification ∧
      m.types.assign (m.store.get v) = .ok (type, types) ∧
      m' = m.register v classification type types := by
  rw [addVariable_run] at h
  split at h
  · cases h
  · rename_i hfree
    split at h
    · cases h
    · rename_i classification hclassify
      split at h
      · cases h
      · rename_i type types hassign
        cases h
        exact ⟨classification, type, types,
          findVariable?_eq_none_of_not_contains (Bool.eq_false_iff.2 hfree), hclassify, hassign, rfl⟩

/-- The model after a variable is registered: the variable has its type and the kind that follows from
    its declaration and the relations, and beside that only derivative links have changed. -/
structure RegisteredAs (m m' : Model) (v : VarId) (type : VariableType) (types : TypeRegistry) :
    Prop where
  self : Variable.Relinked
    { m.store.get v with
      declaredType := some type, kind := some ((m.store.get v).kindFrom m.relations) }
    (m'.store.get v)
  others : ∀ w, w ≠ v → (m.store.get w).Relinked (m'.store.get w)
  rest : m' =
    { m with
      store := m'.store
      types
      registered := m.registered.push v
      names := m.names.insert (m.store.get v).name m.registered.size
      parametersValid := false }

/-- Registering a variable without links of its own links nothing that decides a kind. -/
theorem Kinded.register {m : Model} (h : m.Kinded) {v : VarId}
    (hexist : v.index < m.store.cells.size) (hnew : v ∉ m.registered)
    (hderivative : (m.store.get v).derivative = none)
    (hdifferentiated : (m.store.get v).differentiated = none) {classification : Classification}
    (hclassify : classify m.store (m.store.get v) m.relations = .ok classification)
    (type : VariableType) (types : TypeRegistry) :
    RegisteredAs m (m.register v classification type types) v type types := by
  obtain ⟨hkind, hfollows⟩ := classify_unlinked hderivative hdifferentiated hclassify
  let prepared := m.prepare v classification type types
  have hself : prepared.store.get v =
      { m.store.get v with declaredType := some type, kind := some classification.kind } :=
    prepare_get_self m hexist classification type types
  have hother {w : VarId} (hw : w ≠ v) : prepared.store.get w = m.store.get w :=
    prepare_get_of_ne m hw.symm classification type types
  have hrest : prepared = { m with store := prepared.store, types } := by
    simp only [prepared, prepare, hdifferentiated]
    rfl
  have hprepared : prepared.Kinded := by
    intro w hw
    rw [hrest] at hw
    have hne : w ≠ v := fun heq => hnew (heq ▸ hw)
    rw [hother hne, hrest]
    exact h w hw
  have hrelinks : Relinks prepared (prepared.linkPartner v classification) := by
    apply hprepared.linkPartner
    · rw [hself]
    · rw [hself, hrest]
      exact hfollows
  refine ⟨?_, ?_, ?_⟩
  · have hcell := hrelinks.cells v
    rw [hself, hkind] at hcell
    exact hcell
  · intro w hw
    have hcell := hrelinks.cells w
    rw [hother hw] at hcell
    exact hcell
  · have hlinked (store : Variables) : { prepared with store } = { m with store, types } := by
      rw [hrest]
    change { prepared.linkPartner v classification with
        registered := (prepared.linkPartner v classification).registered.push v
        names := (prepared.linkPartner v classification).names.insert (m.store.get v).name
          (prepared.linkPartner v classification).registered.size
        parametersValid := false } = _
    rw [hrelinks.rest, hlinked]
    rfl

/-- All registered variables have the kinds that follow from them, also the one just registered. -/
theorem RegisteredAs.kinded {m m' : Model} {v : VarId} {type : VariableType} {types : TypeRegistry}
    (h : RegisteredAs m m' v type types) (hm : m.Kinded) : m'.Kinded := by
  intro w hw
  rw [h.rest] at hw ⊢
  by_cases hself : w = v
  · subst hself
    obtain ⟨_, _, heq⟩ := h.self
    simp only [heq]
    rfl
  · obtain ⟨_, _, heq⟩ := h.others w hself
    simp only [heq]
    rcases Array.mem_push.1 hw with hold | hlast
    · exact hm w hold
    · exact absurd hlast hself

end Model

/-! ### Kinds under operations -/

/-- The variable that an operation registers. -/
def Operation.registers? : Operation → Option VarId
  | .addVariable v => some v
  | _ => none

/-- The operation gives a variable that it registers the kind that the variable is classified as, and
    changes the kind of no variable that is registered. -/
structure Operation.KeepsKinds (m : Model) (op : Operation) : Prop where
  registered : ∀ v ∈ m.registered, ((op.run m).store.get v).kind = (m.store.get v).kind
  classified : ∀ v, op.registers? = some v → ∃ classification,
    classify m.store (m.store.get v) m.relations = .ok classification ∧
    ((op.run m).store.get v).kind = some classification.kind

/-- Before any variable is registered there is no kind to change. -/
theorem Operation.keepsKinds_of_empty {m : Model} {op : Operation} (hregistered : m.registered = #[])
    (hop : op.registers? = none) : op.KeepsKinds m where
  registered := by
    intro v hv
    rw [hregistered] at hv
    simp at hv
  classified := fun _ hv => nomatch hop.symm.trans hv

/-- An operation that leaves the kinds alone. -/
theorem Operation.keepsKinds_of_eq {m : Model} {op : Operation} (hop : op.registers? = none)
    (h : ∀ v ∈ m.registered, ((op.run m).store.get v).kind = (m.store.get v).kind) :
    op.KeepsKinds m :=
  ⟨h, fun _ hv => nomatch hop.symm.trans hv⟩

/-- The last pass over the relations changes no kind. -/
theorem Model.Kinded.keepsKinds_resolveLinks {m : Model} (h : m.Kinded) :
    Operation.KeepsKinds m .resolveLinks := by
  refine Operation.keepsKinds_of_eq rfl fun v _ => ?_
  obtain ⟨_, _, heq⟩ := h.resolveLinks.cells v
  change (m.resolveLinks.2.store.get v).kind = _
  rw [heq]

/-- Registering a variable changes no kind but that of the variable. -/
theorem Model.RegisteredAs.keepsKinds {m m' : Model} {v : VarId} {type : VariableType}
    {types : TypeRegistry} (h : RegisteredAs m m' v type types)
    (hnew : v ∉ m.registered) (hrun : (Operation.addVariable v).run m = m')
    {classification : Classification}
    (hclassify : classify m.store (m.store.get v) m.relations = .ok classification)
    (hkind : classification.kind = (m.store.get v).kindFrom m.relations) :
    (Operation.addVariable v).KeepsKinds m where
  registered := by
    intro w hw
    obtain ⟨_, _, heq⟩ := h.others w fun heq => hnew (heq ▸ hw)
    rw [hrun, heq]
  classified := by
    rintro _ ⟨⟩
    obtain ⟨_, _, heq⟩ := h.self
    exact ⟨classification, hclassify, by rw [hrun, heq, hkind]⟩

/-! ### Runs that keep kinds -/

namespace Model

/-- The operations lead to the model and keep all kinds on the way, and the variables that they register
    are those of the model. -/
structure ReachedBy (ops : List Operation) (m : Model) : Prop where
  follows : Follows (fun m op => op.KeepsKinds m) {} ops m
  registered : ops.filterMap Operation.registers? = m.registered.toList

theorem reachedBy_nil : ReachedBy [] {} := ⟨.start, rfl⟩

theorem ReachedBy.registeredApart {ops : List Operation} {m : Model} (h : m.ReachedBy ops) :
    m.RegisteredApart :=
  Reachable.registeredApart h.follows.runs

/-- One more operation. -/
theorem ReachedBy.step {ops : List Operation} {m : Model} (h : m.ReachedBy ops) (op : Operation)
    (hvalid : op.Valid m) (hkeeps : op.KeepsKinds m)
    (hregistered : (op.run m).registered.toList = m.registered.toList ++ op.registers?.toList) :
    (op.run m).ReachedBy (ops ++ [op]) := by
  refine ⟨.step op h.follows hvalid hkeeps, ?_⟩
  rw [List.filterMap_append, h.registered, hregistered]
  cases hop : op.registers? <;> simp [hop]

/-- One more operation that registers nothing. -/
theorem ReachedBy.step_silent {ops : List Operation} {m : Model} (h : m.ReachedBy ops) (op : Operation)
    (hvalid : op.Valid m) (hop : op.registers? = none)
    (hkinds : ∀ v ∈ m.registered, ((op.run m).store.get v).kind = (m.store.get v).kind)
    (hregistered : (op.run m).registered = m.registered) : (op.run m).ReachedBy (ops ++ [op]) := by
  apply h.step op hvalid (Operation.keepsKinds_of_eq hop hkinds)
  rw [hregistered, hop, Option.toList_none, List.append_nil]

/-- The last pass over the relations. -/
theorem ReachedBy.step_resolveLinks {ops : List Operation} {m : Model} (h : m.ReachedBy ops)
    (hkinded : m.Kinded) : m.resolveLinks.2.ReachedBy (ops ++ [.resolveLinks]) := by
  apply h.step_silent .resolveLinks trivial rfl hkinded.keepsKinds_resolveLinks.registered
  change m.resolveLinks.2.registered = _
  rw [hkinded.resolveLinks.rest]

end Model

end FlatDae
