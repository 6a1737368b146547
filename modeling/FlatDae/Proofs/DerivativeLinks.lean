/-
Module: FlatDae.Proofs.DerivativeLinks
Purpose: What a derivative link rests on. A link joins two registered variables that can be linked and
  that a relation of the model, and so an equation, puts on its two sides. One such link keeps all kinds
  and links of a model accounted for by declarations and equations, and what is joined stays joined,
  though not necessarily to the same variable.
Main exports: Equation.SaysDerivative, Variable.IsContinuous, Variable.KindFits, Model.Related,
  Model.Joined, Model.Linked, Model.store_get_link, Model.Linked.link
-/
import FlatDae.Proofs.RegisteredKinds

namespace FlatDae

/-! ### Equations that say what is a derivative -/

/-- The equation is `d = der(x)` or `der(x) = d`, where `d` and `x` are symbols. -/
structure Equation.SaysDerivative (eq : Equation) (d x : Expr) : Prop where
  derivative : d.isSymbol = true
  differentiated : x.isSymbol = true
  sides : ∃ id, eq = ⟨d, .der id x⟩ ∨ eq = ⟨.der id x, d⟩

/-- The relation that is read off an equation is what the equation says. -/
theorem DerivativeRelation.ofEquation?_eq_some_iff {eq : Equation} {r : DerivativeRelation} :
    ofEquation? eq = some r ↔ eq.SaysDerivative r.derivative r.differentiated := by
  obtain ⟨lhs, rhs⟩ := eq
  have hguard {p : Bool} {u : Unit} : (guard (p = true) : Option Unit) = some u ↔ p = true := by
    unfold guard
    cases p <;> simp [failure]
  have hder {e x : Expr} : e.derArgument? = some x ↔ ∃ id, e = .der id x := by
    cases e <;> simp [Expr.derArgument?]
  unfold ofEquation?
  constructor
  · intro h
    generalize hsides : (if lhs.isSymbol then (lhs, rhs) else (rhs, lhs)) = sides at h
    obtain ⟨_, hsymbol, h⟩ := Option.bind_eq_some_iff.1 h
    obtain ⟨x, hargument, h⟩ := Option.bind_eq_some_iff.1 h
    obtain ⟨_, hx, h⟩ := Option.bind_eq_some_iff.1 h
    obtain ⟨id, hargument⟩ := hder.1 hargument
    cases h
    refine ⟨hguard.1 hsymbol, hguard.1 hx, id, ?_⟩
    split at hsides
    · cases hsides
      exact Or.inl (congrArg _ hargument)
    · cases hsides
      exact Or.inr (congrArg (Equation.mk · rhs) hargument)
  · rintro ⟨hd, hx, id, h | h⟩
    · cases h
      unfold guard
      simp [hd, hx, Expr.derArgument?]
    · cases h
      have hlhs : (Expr.der id r.differentiated).isSymbol = false := rfl
      unfold guard
      simp [hlhs, hd, hx, Expr.derArgument?]

/-! ### Continuous variables -/

/-- The variable is real, continuous and no input. -/
structure Variable.IsContinuous (var : Variable) : Prop where
  domain : var.domain = .real
  variability : var.variability = .continuous
  causality : var.causality ≠ .input

theorem Variable.SameMake.symm {a b : Variable} (h : a.SameMake b) : b.SameMake a :=
  ⟨h.symbol.symm, h.domain.symm, h.causality.symm, h.variability.symm⟩

theorem Variable.SameMake.isContinuous_iff {a b : Variable} (h : a.SameMake b) :
    b.IsContinuous ↔ a.IsContinuous := by
  constructor
  · exact fun hb => ⟨h.domain ▸ hb.domain, h.variability ▸ hb.variability, h.causality ▸ hb.causality⟩
  · rintro ⟨hdomain, hvariability, hcausality⟩
    exact ⟨h.domain.trans hdomain, h.variability.trans hvariability, h.causality ▸ hcausality⟩

namespace VariableKind

theorem ofRole_eq_derivative_iff {causality : Causality} {isDerivative isDifferentiated : Bool} :
    ofRole causality isDerivative isDifferentiated = .derivative ↔ isDerivative = true := by
  cases causality <;> cases isDerivative <;> cases isDifferentiated <;> decide

theorem ofRole_eq_differentiated_iff {causality : Causality} {isDerivative isDifferentiated : Bool} :
    ofRole causality isDerivative isDifferentiated = .differentiated ↔
      isDerivative = false ∧ isDifferentiated = true := by
  cases causality <;> cases isDerivative <;> cases isDifferentiated <;> decide

theorem isUnlinked_ofRole_iff {causality : Causality} {isDerivative isDifferentiated : Bool} :
    (ofRole causality isDerivative isDifferentiated).isUnlinked = true ↔
      isDerivative = false ∧ isDifferentiated = false := by
  cases causality <;> cases isDerivative <;> cases isDifferentiated <;> decide

theorem isLinkable_of_isUnlinked {kind : VariableKind} (h : kind.isUnlinked = true) :
    kind.isLinkable = true := by
  cases kind <;> first | rfl | cases h

/-- A continuous variable with a decided kind has one of the two that links give. -/
theorem eq_of_isLinkable {kind : VariableKind} (hlinkable : kind.isLinkable = true)
    (hdecided : kind.isUnlinked = false) : kind = .derivative ∨ kind = .differentiated := by
  cases kind <;> simp_all [isLinkable, isUnlinked]

/-- The kind after a link decides it, if none has before. -/
def linkedAs (kind linked : VariableKind) : VariableKind := if kind.isUnlinked then linked else kind

/-- The kind after a link of which the variable is the derivative, the differentiated one or both. -/
def afterLink (isDerivative isDifferentiated : Bool) (kind : VariableKind) : VariableKind :=
  let kind := if isDerivative then kind.linkedAs .derivative else kind
  if isDifferentiated then kind.linkedAs .differentiated else kind

theorem afterLink_of_decided {kind : VariableKind} (h : kind.isUnlinked = false)
    (isDerivative isDifferentiated : Bool) : kind.afterLink isDerivative isDifferentiated = kind := by
  simp [afterLink, linkedAs, h]

theorem afterLink_of_unlinked {kind : VariableKind} (h : kind.isUnlinked = true)
    (isDerivative isDifferentiated : Bool) : kind.afterLink isDerivative isDifferentiated =
      if isDerivative then .derivative else if isDifferentiated then .differentiated else kind := by
  cases isDerivative with
  | true =>
      have hdecided : derivative.isUnlinked = false := rfl
      cases isDifferentiated <;> simp [afterLink, linkedAs, h, hdecided]
  | false => simp [afterLink, linkedAs, h]

/-- A link leaves alone what can be linked. -/
@[simp] theorem isLinkable_afterLink (isDerivative isDifferentiated : Bool) (kind : VariableKind) :
    (kind.afterLink isDerivative isDifferentiated).isLinkable = kind.isLinkable := by
  cases h : kind.isUnlinked with
  | false => rw [afterLink_of_decided h]
  | true =>
      rw [afterLink_of_unlinked h, isLinkable_of_isUnlinked h]
      split
      · rfl
      · split
        · rfl
        · exact isLinkable_of_isUnlinked h

/-- Either side of a link has a kind that is decided. -/
theorem isUnlinked_afterLink {isDerivative isDifferentiated : Bool}
    (h : isDerivative = true ∨ isDifferentiated = true) (kind : VariableKind) :
    (kind.afterLink isDerivative isDifferentiated).isUnlinked = false := by
  cases hkind : kind.isUnlinked with
  | false => rw [afterLink_of_decided hkind, hkind]
  | true =>
      rw [afterLink_of_unlinked hkind]
      rcases h with rfl | rfl
      · rfl
      · split <;> rfl

end VariableKind

/-- The kind of a registered variable says no more than the declaration and the relations do: it can be
    linked if it is continuous, it is a derivative or differentiated by some relation, and otherwise it is
    what its causality makes it. -/
structure Variable.KindFits (relations : Array DerivativeRelation) (var : Variable)
    (kind : VariableKind) : Prop where
  isLinkable_iff : kind.isLinkable = true ↔ var.IsContinuous
  derivative : kind = .derivative → relations.any (·.derivative.same var.symbol) = true
  differentiated : kind = .differentiated → relations.any (·.differentiated.same var.symbol) = true
  unlinked : kind.isUnlinked = true → kind = .ofRole var.causality false false

namespace Variable.KindFits

variable {relations relations' : Array DerivativeRelation} {a b : Variable} {kind : VariableKind}

theorem mono (h : a.KindFits relations kind) (hmade : a.SameMake b)
    (hrelations : ∀ r ∈ relations, r ∈ relations') : b.KindFits relations' kind where
  isLinkable_iff := h.isLinkable_iff.trans hmade.isContinuous_iff.symm
  derivative := by
    intro hkind
    obtain ⟨r, hr, hsame⟩ := Array.any_eq_true'.1 (h.derivative hkind)
    rw [hmade.symbol]
    exact Array.any_eq_true'.2 ⟨r, hrelations r hr, hsame⟩
  differentiated := by
    intro hkind
    obtain ⟨r, hr, hsame⟩ := Array.any_eq_true'.1 (h.differentiated hkind)
    rw [hmade.symbol]
    exact Array.any_eq_true'.2 ⟨r, hrelations r hr, hsame⟩
  unlinked := by
    rw [hmade.causality]
    exact h.unlinked

/-- A link along a relation leaves a kind that fits. -/
theorem afterLink (h : a.KindFits relations kind) {isDerivative isDifferentiated : Bool}
    (hderivative : isDerivative = true → relations.any (·.derivative.same a.symbol) = true)
    (hdifferentiated : isDifferentiated = true →
      relations.any (·.differentiated.same a.symbol) = true) :
    a.KindFits relations (kind.afterLink isDerivative isDifferentiated) := by
  cases hunlinked : kind.isUnlinked with
  | false =>
      rw [VariableKind.afterLink_of_decided hunlinked]
      exact h
  | true =>
      have hlinkable := VariableKind.isLinkable_of_isUnlinked hunlinked
      rw [VariableKind.afterLink_of_unlinked hunlinked]
      cases isDerivative with
      | true =>
          refine ⟨?_, fun _ => hderivative rfl, fun heq => (nomatch heq), fun heq => (nomatch heq)⟩
          exact iff_of_true rfl (h.isLinkable_iff.1 hlinkable)
      | false =>
          cases isDifferentiated with
          | true =>
              refine ⟨?_, fun heq => (nomatch heq), fun _ => hdifferentiated rfl,
                fun heq => (nomatch heq)⟩
              exact iff_of_true rfl (h.isLinkable_iff.1 hlinkable)
          | false => exact h

/-- The kind that a variable without links is classified as fits. -/
theorem of_classify {store : Variables} {classification : Classification}
    (hderivative : a.derivative = none) (hdifferentiated : a.differentiated = none)
    (h : classify store a relations = .ok classification) :
    a.KindFits relations classification.kind := by
  rw [(classify_unlinked hderivative hdifferentiated h).1]
  have hreal : a.variability = .continuous → a.domain = .real := by
    intro hvariability
    unfold classify at h
    rw [hvariability] at h
    cases hdomain : a.domain with
    | real => rfl
    | _ => simp [hdomain] at h
  have hcontinuous : (a.kindFrom relations).isLinkable = true ↔ a.IsContinuous := by
    unfold kindFrom VariableKind.declared
    constructor
    · intro hlinkable
      cases hvariability : a.variability with
      | continuous =>
          refine ⟨hreal hvariability, hvariability, fun hcausality => ?_⟩
          simp [hvariability, hcausality, VariableKind.isLinkable] at hlinkable
      | constant => simp [hvariability, VariableKind.isLinkable] at hlinkable
      | parameter =>
          cases hdependent : isDependent a <;>
            simp [hvariability, hdependent, VariableKind.parameter, VariableKind.isLinkable] at hlinkable
      | discrete =>
          cases hcausality : a.causality <;>
            simp [hvariability, hcausality, VariableKind.isLinkable] at hlinkable
    · rintro ⟨-, hvariability, hcausality⟩
      cases hcase : a.causality with
      | input => exact absurd hcase hcausality
      | output => simp only [hvariability, VariableKind.ofRole]; split <;> (try split) <;> rfl
      | internal => simp only [hvariability, VariableKind.ofRole]; split <;> (try split) <;> rfl
  have hrole (hlinkable : (a.kindFrom relations).isLinkable = true) :
      a.kindFrom relations = .ofRole a.causality (relations.any (·.derivative.same a.symbol))
        (relations.any (·.differentiated.same a.symbol)) :=
    VariableKind.declared_of_linkable hlinkable
  refine ⟨hcontinuous, fun hkind => ?_, fun hkind => ?_, fun hunlinked => ?_⟩
  · rw [hrole (hkind ▸ rfl)] at hkind
    exact VariableKind.ofRole_eq_derivative_iff.1 hkind
  · rw [hrole (hkind ▸ rfl)] at hkind
    exact (VariableKind.ofRole_eq_differentiated_iff.1 hkind).2
  · have hkind := hrole (VariableKind.isLinkable_of_isUnlinked hunlinked)
    rw [hkind, VariableKind.isUnlinked_ofRole_iff] at hunlinked
    rw [hkind, hunlinked.1, hunlinked.2]

end Variable.KindFits

namespace Model

/-! ### Variables that are related and joined -/

/-- The equations of the model, initial ones first. -/
def equations (m : Model) : List Equation := m.initialEquations.toList ++ m.daeEquations.toList

theorem isLinkable_iff {m : Model} {v : VarId} : m.isLinkable v = true ↔
    ∃ kind, (m.store.get v).kind = some kind ∧ kind.isLinkable = true := by
  rw [isLinkable]
  cases (m.store.get v).kind <;> simp

/-- A registered variable has a kind that no link decides any more. -/
def IsDecided (m : Model) (v : VarId) : Prop :=
  ∃ kind, (m.store.get v).kind = some kind ∧ kind.isUnlinked = false

/-- Both variables are registered and can be linked, and `d` is the derivative of `x` by a relation. -/
structure Related (m : Model) (d x : VarId) : Prop where
  derivative_mem : d ∈ m.registered
  differentiated_mem : x ∈ m.registered
  derivative_linkable : m.isLinkable d = true
  differentiated_linkable : m.isLinkable x = true
  relation : ∃ r ∈ m.relations, r.derivative.same (m.store.get d).symbol = true ∧
    r.differentiated.same (m.store.get x).symbol = true

/-- The variables are related, and either has a link on the side in question and a kind that is
    decided. The links need not be to each other. -/
structure Joined (m : Model) (d x : VarId) : Prop extends Related m d x where
  derivative_isSome : (m.store.get x).derivative.isSome = true
  differentiated_isSome : (m.store.get d).differentiated.isSome = true
  derivative_decided : m.IsDecided d
  differentiated_decided : m.IsDecided x

/-- Kinds and links are those that declarations and equations account for. -/
structure Linked (m : Model) : Prop where
  kinds : ∀ v ∈ m.registered, ∃ kind, (m.store.get v).kind = some kind ∧
    (m.store.get v).KindFits m.relations kind
  relations : ∀ r, r ∈ m.relations ↔ ∃ eq ∈ m.equations, DerivativeRelation.ofEquation? eq = some r
  derivative : ∀ {d x}, (m.store.get x).derivative = some d → m.Joined d x
  differentiated : ∀ {d x}, (m.store.get d).differentiated = some x → m.Joined d x

/-! ### Growth -/

/-- The registered variables and relations are still there. The variables can be linked as before, and
    neither a link nor a kind that is decided is lost, though a link may be to another variable. -/
structure Furthers (m m' : Model) : Prop where
  registered : ∀ v ∈ m.registered, v ∈ m'.registered
  relations : ∀ r ∈ m.relations, r ∈ m'.relations
  made : ∀ v ∈ m.registered, (m.store.get v).SameMake (m'.store.get v)
  linkable : ∀ v ∈ m.registered, m.isLinkable v = true → m'.isLinkable v = true
  decided : ∀ v ∈ m.registered, m.IsDecided v → m'.IsDecided v
  derivative : ∀ v ∈ m.registered, (m.store.get v).derivative.isSome = true →
    (m'.store.get v).derivative.isSome = true
  differentiated : ∀ v ∈ m.registered, (m.store.get v).differentiated.isSome = true →
    (m'.store.get v).differentiated.isSome = true

section Growth

variable {m m' : Model} {d x : VarId}

theorem Related.mono (h : m.Related d x) (hfurthers : Furthers m m') : m'.Related d x where
  derivative_mem := hfurthers.registered d h.derivative_mem
  differentiated_mem := hfurthers.registered x h.differentiated_mem
  derivative_linkable := hfurthers.linkable d h.derivative_mem h.derivative_linkable
  differentiated_linkable := hfurthers.linkable x h.differentiated_mem h.differentiated_linkable
  relation := by
    obtain ⟨r, hr, hd, hx⟩ := h.relation
    refine ⟨r, hfurthers.relations r hr, ?_, ?_⟩
    · rwa [(hfurthers.made d h.derivative_mem).symbol]
    · rwa [(hfurthers.made x h.differentiated_mem).symbol]

theorem Furthers.refl (m : Model) : Furthers m m :=
  ⟨fun _ hv => hv, fun _ hr => hr, fun _ _ => .refl _, fun _ _ h => h, fun _ _ h => h, fun _ _ h => h,
    fun _ _ h => h⟩

theorem Furthers.trans {m'' : Model} (h : Furthers m m') (h' : Furthers m' m'') : Furthers m m'' where
  registered := fun v hv => h'.registered v (h.registered v hv)
  relations := fun r hr => h'.relations r (h.relations r hr)
  made := fun v hv => (h.made v hv).trans (h'.made v (h.registered v hv))
  linkable := fun v hv hlinkable => h'.linkable v (h.registered v hv) (h.linkable v hv hlinkable)
  decided := fun v hv hdecided => h'.decided v (h.registered v hv) (h.decided v hv hdecided)
  derivative := fun v hv hsome => h'.derivative v (h.registered v hv) (h.derivative v hv hsome)
  differentiated := fun v hv hsome =>
    h'.differentiated v (h.registered v hv) (h.differentiated v hv hsome)

theorem Joined.mono (h : m.Joined d x) (hfurthers : Furthers m m') : m'.Joined d x where
  toRelated := h.toRelated.mono hfurthers
  derivative_isSome := hfurthers.derivative x h.differentiated_mem h.derivative_isSome
  differentiated_isSome := hfurthers.differentiated d h.derivative_mem h.differentiated_isSome
  derivative_decided := hfurthers.decided d h.derivative_mem h.derivative_decided
  differentiated_decided := hfurthers.decided x h.differentiated_mem h.differentiated_decided

end Growth

/-- The links of all variables and the kinds of the registered ones stay, and no relation is lost. -/
structure KeepsLinks (m m' : Model) : Prop where
  registered : m'.registered = m.registered
  relations : ∀ r ∈ m.relations, r ∈ m'.relations
  made : ∀ v ∈ m.registered, (m.store.get v).SameMake (m'.store.get v)
  kind : ∀ v ∈ m.registered, (m'.store.get v).kind = (m.store.get v).kind
  derivative : ∀ v, (m'.store.get v).derivative = (m.store.get v).derivative
  differentiated : ∀ v, (m'.store.get v).differentiated = (m.store.get v).differentiated

namespace KeepsLinks

variable {m m' m'' : Model}

theorem refl (m : Model) : KeepsLinks m m :=
  ⟨rfl, fun _ hr => hr, fun _ _ => .refl _, fun _ _ => rfl, fun _ => rfl, fun _ => rfl⟩

theorem trans (h : KeepsLinks m m') (h' : KeepsLinks m' m'') : KeepsLinks m m'' where
  registered := h'.registered.trans h.registered
  relations := fun r hr => h'.relations r (h.relations r hr)
  made := fun v hv => (h.made v hv).trans (h'.made v (h.registered ▸ hv))
  kind := fun v hv => (h'.kind v (h.registered ▸ hv)).trans (h.kind v hv)
  derivative := fun v => (h'.derivative v).trans (h.derivative v)
  differentiated := fun v => (h'.differentiated v).trans (h.differentiated v)

/-- A change of neither the variables nor the list of registered ones. -/
theorem of_eq (hstore : m'.store = m.store) (hregistered : m'.registered = m.registered)
    (hrelations : ∀ r ∈ m.relations, r ∈ m'.relations) : KeepsLinks m m' where
  registered := hregistered
  relations := hrelations
  made := fun _ _ => hstore ▸ .refl _
  kind := fun _ _ => by rw [hstore]
  derivative := fun _ => by rw [hstore]
  differentiated := fun _ => by rw [hstore]

/-- A change of a variable in other respects. -/
theorem modify (m : Model) (v : VarId) {f : Variable → Variable}
    (hmake : ∀ var : Variable, var.SameMake (f var)) (hkind : ∀ var : Variable, (f var).kind = var.kind)
    (hderivative : ∀ var : Variable, (f var).derivative = var.derivative)
    (hdifferentiated : ∀ var : Variable, (f var).differentiated = var.differentiated) :
    KeepsLinks m (m.modifyVariable v f) := by
  refine ⟨rfl, fun _ hr => hr, fun w _ => ?_, fun w _ => ?_, fun w => ?_, fun w => ?_⟩ <;>
    simp only [modifyVariable, Variables.get_modify] <;> split
  · exact hmake _
  · exact .refl _
  · exact hkind _
  · rfl
  · exact hderivative _
  · rfl
  · exact hdifferentiated _
  · rfl

/-- A new variable without links. -/
theorem create {new : Variable} (hexist : ∀ v ∈ m.registered, v.index < m.store.cells.size)
    (hderivative : new.derivative = none) (hdifferentiated : new.differentiated = none) :
    KeepsLinks m (m.createVariable new).2 := by
  have hold {v : VarId} (hv : v ∈ m.registered) :
      (m.createVariable new).2.store.get v = m.store.get v :=
    Variables.get_create _ _ (hexist v hv)
  have hblank {v : VarId} (hv : v.index = m.store.cells.size) : m.store.get v = default := by
    simp [Variables.get, hv]
  have hlinks (v : VarId) : ((m.createVariable new).2.store.get v).derivative =
      (m.store.get v).derivative ∧
      ((m.createVariable new).2.store.get v).differentiated = (m.store.get v).differentiated := by
    change ((m.store.create new).2.get v).derivative = _ ∧ _
    rw [createVariable, Variables.get_create_eq]
    split
    · rename_i hv
      rw [hderivative, hdifferentiated, hblank hv]
      exact ⟨rfl, rfl⟩
    · exact ⟨rfl, rfl⟩
  exact ⟨rfl, fun _ hr => hr, fun v hv => hold hv ▸ .refl _, fun v hv => by rw [hold hv],
    fun v => (hlinks v).1, fun v => (hlinks v).2⟩

theorem recordValue (m : Model) (found : Definition × Float) : KeepsLinks m (m.recordValue found) := by
  unfold Model.recordValue
  split
  · have hfresh : KeepsLinks m (m.fresh (Fresh.constant found.2)).2 := .of_eq rfl rfl fun _ hr => hr
    exact hfresh.trans (.modify _ _ (fun _ => ⟨rfl, rfl, rfl, rfl⟩) (fun _ => rfl) (fun _ => rfl)
      fun _ => rfl)
  · exact .refl m

theorem recordValues (found : List (Definition × Float)) (m : Model) :
    KeepsLinks m (m.recordValues found) := by
  induction found generalizing m with
  | nil => exact .refl m
  | cons first found ih => exact .trans (.recordValue m first) (ih (m.recordValue first))

theorem calculate (m : Model) : KeepsLinks m (Model.calculate.after m) := by
  have hstart : KeepsLinks m m.withoutValues := .of_eq rfl rfl fun _ hr => hr
  have hrecorded := hstart.trans (.recordValues m.foundValues m.withoutValues)
  rw [(calculate_after_eq m).1]
  exact hrecorded.trans (.of_eq rfl rfl fun _ hr => hr)

theorem furthers (h : KeepsLinks m m') : Furthers m m' where
  registered := fun v hv => h.registered ▸ hv
  relations := h.relations
  made := h.made
  linkable := fun v hv hlinkable => by rwa [isLinkable, h.kind v hv]
  decided := fun v hv hdecided => by rwa [IsDecided, h.kind v hv]
  derivative := fun v _ hsome => by rwa [h.derivative v]
  differentiated := fun v _ hsome => by rwa [h.differentiated v]

end KeepsLinks

/-! ### One link -/

section Link

variable (m : Model) {d x : VarId}

theorem withLinkedKind_eq (linked : VariableKind) (var : Variable) :
    withLinkedKind linked var = { var with kind := var.kind.map (·.linkedAs linked) } := by
  obtain ⟨_, _, _, _, _, _, _, _, _, _, _, kind⟩ := var
  cases kind with
  | none => rfl
  | some kind => cases hunlinked : kind.isUnlinked <;> simp [withLinkedKind, VariableKind.linkedAs, hunlinked]

/-- A link changes the links and the kinds of its two sides. -/
theorem store_get_link (hd : d.index < m.store.cells.size) (hx : x.index < m.store.cells.size)
    (v : VarId) :
    (m.link d x).store.get v =
      { m.store.get v with
        derivative := if v = x then some d else (m.store.get v).derivative
        differentiated := if v = d then some x else (m.store.get v).differentiated
        kind := (m.store.get v).kind.map (·.afterLink (v = d) (v = x)) } := by
  unfold Model.link
  simp only [modifyVariable, Variables.get_modify, Variables.size_modify, hd, hx, and_true,
    withLinkedKind_eq, VariableKind.afterLink, eq_comm (a := v)]
  by_cases hvd : d = v <;> by_cases hvx : x = v <;> simp [hvd, hvx, Function.comp_def]

/-- A link changes variables alone. -/
theorem link_rest : (m.link d x).registered = m.registered ∧ (m.link d x).relations = m.relations ∧
    (m.link d x).equations = m.equations := by
  have hrest := (Updates.link m d x).rest
  generalize m.link d x = m' at hrest ⊢
  rw [hrest]
  exact ⟨rfl, rfl, rfl⟩

/-- A link leaves alone what can be linked. -/
theorem isLinkable_link (hd : d.index < m.store.cells.size) (hx : x.index < m.store.cells.size)
    (v : VarId) : (m.link d x).isLinkable v = m.isLinkable v := by
  rw [isLinkable, isLinkable, m.store_get_link hd hx]
  cases (m.store.get v).kind with
  | none => rfl
  | some kind => exact VariableKind.isLinkable_afterLink _ _ kind

/-- Either side of a link has a kind that is decided. -/
theorem isDecided_link (hd : d.index < m.store.cells.size) (hx : x.index < m.store.cells.size)
    {v : VarId} (hv : v = d ∨ v = x) (hlinkable : m.isLinkable v = true) :
    (m.link d x).IsDecided v := by
  obtain ⟨kind, hkind, -⟩ := isLinkable_iff.1 hlinkable
  rw [IsDecided, m.store_get_link hd hx, hkind]
  refine ⟨_, rfl, VariableKind.isUnlinked_afterLink ?_ kind⟩
  rcases hv with rfl | rfl
  · exact Or.inl (decide_eq_true rfl)
  · exact Or.inr (decide_eq_true rfl)

theorem Furthers.link (hd : d.index < m.store.cells.size) (hx : x.index < m.store.cells.size) :
    Furthers m (m.link d x) where
  registered := fun v hv => by rwa [m.link_rest.1]
  relations := fun r hr => by rwa [m.link_rest.2.1]
  made := fun v _ => ((Updates.link m d x).cells v).toSameMake
  linkable := fun v _ hlinkable => by rwa [m.isLinkable_link hd hx]
  decided := by
    rintro v - ⟨kind, hkind, hdecided⟩
    rw [IsDecided, m.store_get_link hd hx, hkind]
    exact ⟨kind, congrArg some (VariableKind.afterLink_of_decided hdecided _ _), hdecided⟩
  derivative := by
    intro v _ hsome
    rw [m.store_get_link hd hx]
    by_cases hv : v = x <;> simp [hv, hsome]
  differentiated := by
    intro v _ hsome
    rw [m.store_get_link hd hx]
    by_cases hv : v = d <;> simp [hv, hsome]

variable {m}

/-- A link joins what is related. -/
theorem Related.joined_link (h : m.Related d x) (hd : d.index < m.store.cells.size)
    (hx : x.index < m.store.cells.size) : (m.link d x).Joined d x where
  toRelated := h.mono (.link m hd hx)
  derivative_isSome := by simp [m.store_get_link hd hx]
  differentiated_isSome := by simp [m.store_get_link hd hx]
  derivative_decided := m.isDecided_link hd hx (Or.inl rfl) h.derivative_linkable
  differentiated_decided := m.isDecided_link hd hx (Or.inr rfl) h.differentiated_linkable

/-- One link between related variables keeps kinds and links accounted for. -/
theorem Linked.link (h : m.Linked) (hexist : ∀ v ∈ m.registered, v.index < m.store.cells.size)
    (hrelated : m.Related d x) : (m.link d x).Linked := by
  have hd := hexist d hrelated.derivative_mem
  have hx := hexist x hrelated.differentiated_mem
  have hfurthers : Furthers m (m.link d x) := .link m hd hx
  obtain ⟨r, hr, hsame, hsame'⟩ := hrelated.relation
  obtain ⟨hregistered, hrelations, hequations⟩ := m.link_rest (d := d) (x := x)
  refine ⟨fun v hv => ?_, fun r => ?_, fun {d' x'} hlink => ?_, fun {d' x'} hlink => ?_⟩
  · rw [hregistered] at hv
    obtain ⟨kind, hkind, hfits⟩ := h.kinds v hv
    rw [m.store_get_link hd hx, hkind, hrelations]
    refine ⟨_, rfl, (hfits.afterLink ?_ ?_).mono ⟨rfl, rfl, rfl, rfl⟩ fun _ hr => hr⟩
    · intro hv
      rw [of_decide_eq_true hv]
      exact Array.any_eq_true'.2 ⟨r, hr, hsame⟩
    · intro hv
      rw [of_decide_eq_true hv]
      exact Array.any_eq_true'.2 ⟨r, hr, hsame'⟩
  · rw [hrelations, hequations]
    exact h.relations r
  · rw [m.store_get_link hd hx] at hlink
    by_cases hx' : x' = x
    · simp only [hx', if_true] at hlink
      rw [hx', ← Option.some.inj hlink]
      exact hrelated.joined_link hd hx
    · simp only [hx', if_false] at hlink
      exact (h.derivative hlink).mono hfurthers
  · rw [m.store_get_link hd hx] at hlink
    by_cases hd' : d' = d
    · simp only [hd', if_true] at hlink
      rw [hd', ← Option.some.inj hlink]
      exact hrelated.joined_link hd hx
    · simp only [hd', if_false] at hlink
      exact (h.differentiated hlink).mono hfurthers

end Link

end Model

end FlatDae
