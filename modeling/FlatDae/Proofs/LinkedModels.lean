/-
Module: FlatDae.Proofs.LinkedModels
Purpose: Kinds and links of the models that come about without links by hand. A variable is linked when
  it is registered, along a relation, and the last pass links along relations. No other operation makes
  a link or changes a kind, so declarations and equations account for those of every such model.
Main exports: Model.enroll, Model.register_eq, Operation.LinksByHand, Model.run_links_cases,
  Model.Linked.run, Model.Reachable.linked
-/
import FlatDae.Proofs.LinkPass

namespace FlatDae

namespace Model

/-! ### Registration -/

/-- The model with a variable prepared and in the list, but not linked. -/
def enroll (m : Model) (v : VarId) (classification : Classification) (type : VariableType)
    (types : TypeRegistry) : Model :=
  let prepared := m.prepare v classification type types
  { prepared with
    registered := prepared.registered.push v
    names := prepared.names.insert (m.store.get v).name prepared.registered.size
    parametersValid := false }

section Registration

variable {m : Model} {v : VarId} {classification : Classification} {type : VariableType}
  {types : TypeRegistry}

/-- A variable without links brings no relation. -/
theorem enroll_relations (hdifferentiated : (m.store.get v).differentiated = none) :
    (m.enroll v classification type types).relations = m.relations := by
  simp only [enroll, prepare, hdifferentiated]
  rfl

theorem enroll_equations :
    (m.enroll v classification type types).equations = m.equations := by
  simp only [enroll, prepare, equations]
  split <;> rfl

theorem enroll_registered :
    (m.enroll v classification type types).registered = m.registered.push v := by
  simp only [enroll, prepare]
  split <;> rfl

theorem enroll_get_self (hexist : v.index < m.store.cells.size) :
    (m.enroll v classification type types).store.get v =
      { m.store.get v with declaredType := some type, kind := some classification.kind } :=
  prepare_get_self m hexist classification type types

theorem enroll_get_of_ne {w : VarId} (h : w ≠ v) :
    (m.enroll v classification type types).store.get w = m.store.get w :=
  prepare_get_of_ne m h.symm classification type types

/-- A variable that is not registered has no links. -/
theorem Linked.unlinked (h : m.Linked) (hv : v ∉ m.registered) :
    (m.store.get v).derivative = none ∧ (m.store.get v).differentiated = none := by
  constructor
  · cases hlink : (m.store.get v).derivative with
    | none => rfl
    | some d => exact absurd (h.derivative hlink).differentiated_mem hv
  · cases hlink : (m.store.get v).differentiated with
    | none => rfl
    | some x => exact absurd (h.differentiated hlink).derivative_mem hv

/-- A link does not depend on the list of registered variables and its index. -/
theorem link_enroll (d x : VarId) :
    let linked := (m.prepare v classification type types).link d x
    { linked with
      registered := linked.registered.push v
      names := linked.names.insert (m.store.get v).name linked.registered.size
      parametersValid := false } = (m.enroll v classification type types).link d x := by
  simp only [enroll, link, modifyVariable]

/-- To register a variable without links is to list it and then to link it along a relation, if at
    all. -/
theorem register_eq (hexist : v.index < m.store.cells.size)
    (hderivative : (m.store.get v).derivative = none)
    (hdifferentiated : (m.store.get v).differentiated = none)
    (hclassify : classify m.store (m.store.get v) m.relations = .ok classification) :
    m.register v classification type types = m.enroll v classification type types ∨
    ∃ d x, (m.enroll v classification type types).Related d x ∧
      m.register v classification type types = (m.enroll v classification type types).link d x := by
  let enrolled := m.enroll v classification type types
  have hself : enrolled.store.get v =
      { m.store.get v with declaredType := some type, kind := some classification.kind } :=
    enroll_get_self hexist
  have hmem : v ∈ enrolled.registered := by
    simp only [enrolled, enroll_registered, Array.mem_push_self]
  have hfollows := (classify_unlinked hderivative hdifferentiated hclassify).2
  unfold register linkPartner
  simp only
  split
  · exact Or.inl rfl
  · rename_i other hother
    obtain ⟨hfind, hlinkable⟩ := Option.filter_eq_some_iff.1 hother
    obtain ⟨partner, hpartner, hfind⟩ := Option.bind_eq_some_iff.1 hfind
    obtain ⟨hlisted, hsame⟩ := findBySymbol?_eq_some hfind
    have hother : other ∈ enrolled.registered := Array.mem_push_of_mem _ hlisted
    refine Or.inr ?_
    rcases hfollows partner hpartner with ⟨hkind, r, hr, hsymbol, rfl⟩ | ⟨hkind, r, hr, hsymbol, rfl⟩
    · simp only [hkind]
      refine ⟨v, other, ⟨hmem, hother, ?_, hlinkable, r, ?_, ?_, hsame⟩, ?_⟩
      · rw [isLinkable, hself, hkind]
        rfl
      · rwa [enroll_relations hdifferentiated]
      · rwa [hself]
      · exact link_enroll v other
    · simp only [hkind]
      refine ⟨other, v, ⟨hother, hmem, hlinkable, ?_, r, ?_, hsame, ?_⟩, ?_⟩
      · rw [isLinkable, hself, hkind]
        rfl
      · rwa [enroll_relations hdifferentiated]
      · rwa [hself]
      · exact link_enroll other v

/-- A variable with a free name is listed with the kind that it is classified as. -/
theorem Linked.enroll (h : m.Linked) (hexist : v.index < m.store.cells.size) (hnew : v ∉ m.registered)
    (hclassify : classify m.store (m.store.get v) m.relations = .ok classification) :
    (m.enroll v classification type types).Linked := by
  obtain ⟨hderivative, hdifferentiated⟩ := h.unlinked hnew
  let enrolled := m.enroll v classification type types
  have hself : enrolled.store.get v =
      { m.store.get v with declaredType := some type, kind := some classification.kind } :=
    enroll_get_self hexist
  have hold {w : VarId} (hw : w ∈ m.registered) : enrolled.store.get w = m.store.get w :=
    enroll_get_of_ne fun heq => hnew (heq ▸ hw)
  have hrelations : enrolled.relations = m.relations := enroll_relations hdifferentiated
  have hfurthers : Furthers m enrolled := by
    constructor
    · intro w hw
      simp only [enrolled, enroll_registered]
      exact Array.mem_push_of_mem _ hw
    · exact fun r hr => hrelations ▸ hr
    · exact fun w hw => hold hw ▸ .refl _
    · exact fun w hw hlinkable => by rwa [isLinkable, hold hw]
    · exact fun w hw hdecided => by rwa [IsDecided, hold hw]
    · exact fun w hw hsome => by rwa [hold hw]
    · exact fun w hw hsome => by rwa [hold hw]
  have hlinks (w : VarId) : (enrolled.store.get w).derivative = (m.store.get w).derivative ∧
      (enrolled.store.get w).differentiated = (m.store.get w).differentiated := by
    by_cases hw : w = v
    · rw [hw, hself]
      exact ⟨rfl, rfl⟩
    · rw [show enrolled.store.get w = m.store.get w from enroll_get_of_ne hw]
      exact ⟨rfl, rfl⟩
  refine ⟨fun w hw => ?_, fun r => ?_, fun {d x} hlink => ?_, fun {d x} hlink => ?_⟩
  · change ∃ kind, (enrolled.store.get w).kind = some kind ∧
      (enrolled.store.get w).KindFits enrolled.relations kind
    rw [hrelations]
    rw [enroll_registered] at hw
    rcases Array.mem_push.1 hw with hlisted | rfl
    · rw [hold hlisted]
      exact h.kinds w hlisted
    · rw [hself]
      have hfits := Variable.KindFits.of_classify hderivative hdifferentiated hclassify
      exact ⟨_, rfl, hfits.mono ⟨rfl, rfl, rfl, rfl⟩ fun _ hr => hr⟩
  · rw [enroll_equations]
    change r ∈ enrolled.relations ↔ _
    rw [hrelations]
    exact h.relations r
  · exact (h.derivative ((hlinks x).1 ▸ hlink)).mono hfurthers
  · exact (h.differentiated ((hlinks d).2 ▸ hlink)).mono hfurthers

theorem Linked.register (h : m.Linked) (happart : m.RegisteredApart)
    (hexist : v.index < m.store.cells.size) (hfree : m.findVariable? (m.store.get v).name = none)
    (hclassify : classify m.store (m.store.get v) m.relations = .ok classification) :
    (m.register v classification type types).Linked := by
  have hnew := happart.not_mem_registered hfree
  obtain ⟨hderivative, hdifferentiated⟩ := h.unlinked hnew
  have henrolled : (m.enroll v classification type types).Linked :=
    h.enroll hexist hnew hclassify
  rcases register_eq hexist hderivative hdifferentiated hclassify with heq | ⟨d, x, hrelated, heq⟩
  · rw [heq]
    exact henrolled
  · rw [heq]
    have hsize : (m.enroll v classification type types).store.cells.size = m.store.cells.size := by
      change (m.prepare v classification type types).store.cells.size = _
      rw [prepare_store, Variables.size_modify, Variables.size_modify]
    refine henrolled.link (fun w hw => ?_) hrelated
    rw [hsize]
    rw [enroll_registered] at hw
    rcases Array.mem_push.1 hw with hlisted | rfl
    · exact happart.exist w hlisted
    · exact hexist

end Registration

end Model

/-! ### Operations -/

/-- Whether the operation gives a variable a derivative link by hand. -/
def Operation.LinksByHand : Operation → Prop
  | .create new => new.derivative ≠ none ∨ new.differentiated ≠ none
  | .setDerivative _ _ => True
  | .setDifferentiated _ _ => True
  | _ => False

namespace Model

theorem linked_empty : Linked {} where
  kinds := fun v hv => by simp at hv
  relations := fun r => by simp [equations]
  derivative := fun h => nomatch h
  differentiated := fun h => nomatch h

/-- Links, kinds, relations and equations stay. -/
structure KeepsRelations (m m' : Model) : Prop extends KeepsLinks m m' where
  relations_eq : m'.relations = m.relations
  equations_eq : m'.equations = m.equations

/-- An equation was added, and nothing else was changed that links rest on. -/
structure Learns (m m' : Model) (eq : Equation) : Prop extends KeepsLinks m m' where
  mem_relations_iff : ∀ r, r ∈ m'.relations ↔
    r ∈ m.relations ∨ DerivativeRelation.ofEquation? eq = some r
  mem_equations_iff : ∀ eq', eq' ∈ m'.equations ↔ eq' ∈ m.equations ∨ eq' = eq

section Operations

variable {m : Model}

theorem KeepsRelations.of_eq {m' : Model} (hstore : m'.store = m.store)
    (hregistered : m'.registered = m.registered) (hrelations : m'.relations = m.relations)
    (hequations : m'.equations = m.equations) : KeepsRelations m m' where
  toKeepsLinks := .of_eq hstore hregistered fun _ hr => hrelations ▸ hr
  relations_eq := hrelations
  equations_eq := hequations

theorem KeepsRelations.modify (m : Model) (v : VarId) {f : Variable → Variable}
    (hmake : ∀ var : Variable, var.SameMake (f var)) (hkind : ∀ var : Variable, (f var).kind = var.kind)
    (hderivative : ∀ var : Variable, (f var).derivative = var.derivative)
    (hdifferentiated : ∀ var : Variable, (f var).differentiated = var.differentiated) :
    KeepsRelations m (m.modifyVariable v f) :=
  ⟨.modify m v hmake hkind hderivative hdifferentiated, rfl, rfl⟩

theorem KeepsRelations.calculate (m : Model) : KeepsRelations m (Model.calculate.after m) := by
  suffices h : (Model.calculate.after m).relations = m.relations ∧
      (Model.calculate.after m).equations = m.equations from ⟨.calculate m, h.1, h.2⟩
  rw [(calculate_after_eq m).1, (Updates.recordValues m.foundValues m.withoutValues).rest]
  exact ⟨rfl, rfl⟩

/-- An equation brings the relation that it states, whichever list it is added to. -/
theorem Learns.of_eq {m' : Model} {eq : Equation} (hstore : m'.store = m.store)
    (hregistered : m'.registered = m.registered)
    (hrelations : m'.relations = (m.learnRelation eq).relations)
    (hequations : ∀ eq', eq' ∈ m'.equations ↔ eq' ∈ m.equations ∨ eq' = eq) : Learns m m' eq := by
  have hmem (r : DerivativeRelation) : r ∈ m'.relations ↔
      r ∈ m.relations ∨ DerivativeRelation.ofEquation? eq = some r := by
    rw [hrelations]
    unfold learnRelation
    cases hrelation : DerivativeRelation.ofEquation? eq with
    | none => simp
    | some relation => simp [Array.mem_push, eq_comm]
  exact ⟨.of_eq hstore hregistered fun r hr => (hmem r).2 (Or.inl hr), hmem, hequations⟩

/-- Learning changes the relations alone. -/
theorem learnRelation_eq (m : Model) (eq : Equation) :
    m.learnRelation eq = { m with relations := (m.learnRelation eq).relations } := by
  unfold learnRelation
  split <;> rfl

theorem Learns.addInitialEquation (m : Model) (eq : Equation) :
    Learns m (m.addInitialEquation eq) eq := by
  rw [Model.addInitialEquation, learnRelation_eq]
  refine .of_eq rfl rfl rfl fun eq' => ?_
  simp only [equations, Array.toList_push, List.mem_append, List.mem_singleton]
  exact or_right_comm

theorem Learns.addDaeEquation (m : Model) (eq : Equation) : Learns m (m.addDaeEquation eq) eq := by
  rw [Model.addDaeEquation, learnRelation_eq]
  refine .of_eq rfl rfl rfl fun eq' => ?_
  simp only [equations, Array.toList_push, List.mem_append, List.mem_singleton]
  exact or_assoc.symm

/-- Without a link by hand, an operation leaves links, relations and equations alone, adds an equation,
    registers a variable or is the pass over all relations. -/
theorem run_links_cases (happart : m.RegisteredApart) {op : Operation} (hhand : ¬ op.LinksByHand) :
    KeepsRelations m (op.run m) ∨
    (∃ eq, (op = .addInitialEquation eq ∨ op = .addDaeEquation eq) ∧ Learns m (op.run m) eq) ∨
    (∃ v classification type types, op = .addVariable v ∧
      m.findVariable? (m.store.get v).name = none ∧
      classify m.store (m.store.get v) m.relations = .ok classification ∧
      op.run m = m.register v classification type types) ∨
    op = .resolveLinks := by
  have hmodify (v : VarId) (f : Variable → Variable)
      (hmake : ∀ var : Variable, var.SameMake (f var)) (hkind : ∀ var : Variable, (f var).kind = var.kind)
      (hderivative : ∀ var : Variable, (f var).derivative = var.derivative)
      (hdifferentiated : ∀ var : Variable, (f var).differentiated = var.differentiated) :
      KeepsRelations m (m.modifyVariable v f) :=
    .modify m v hmake hkind hderivative hdifferentiated
  have heffect := op.effect m
  generalize op.run m = m' at heffect ⊢
  cases heffect with
  | nothing op => exact Or.inl (.of_eq rfl rfl rfl rfl)
  | makeNodes supply => exact Or.inl (.of_eq rfl rfl rfl rfl)
  | create new =>
      simp only [Operation.LinksByHand, not_or, not_not] at hhand
      exact Or.inl ⟨.create happart.exist hhand.1 hhand.2, rfl, rfl⟩
  | setDeclaredType v type =>
      exact Or.inl (hmodify v _ (fun _ => ⟨rfl, rfl, rfl, rfl⟩) (fun _ => rfl) (fun _ => rfl) fun _ => rfl)
  | setAttribute v name value =>
      exact Or.inl (hmodify v _ (fun _ => ⟨rfl, rfl, rfl, rfl⟩) (fun _ => rfl) (fun _ => rfl) fun _ => rfl)
  | setDerivative v derivative => exact absurd trivial hhand
  | setDifferentiated v differentiated => exact absurd trivial hhand
  | setAlias v target negated =>
      exact Or.inl (hmodify v _ (fun _ => ⟨rfl, rfl, rfl, rfl⟩) (fun _ => rfl) (fun _ => rfl) fun _ => rfl)
  | register v classification type types hfree hclassify hassign =>
      exact Or.inr (Or.inr (Or.inl ⟨v, classification, type, types, rfl, hfree, hclassify, rfl⟩))
  | addInitialEquation eq => exact Or.inr (Or.inl ⟨eq, Or.inl rfl, .addInitialEquation m eq⟩)
  | addDaeEquation eq => exact Or.inr (Or.inl ⟨eq, Or.inr rfl, .addDaeEquation m eq⟩)
  | addType type types hadd => exact Or.inl (.of_eq rfl rfl rfl rfl)
  | setFunction f => exact Or.inl (.of_eq rfl rfl rfl rfl)
  | setTime symbol => exact Or.inl (.of_eq rfl rfl rfl rfl)
  | resolveLinks => exact Or.inr (Or.inr (Or.inr rfl))
  | calculate op => exact Or.inl (.calculate m)

/-- What leaves links alone keeps them accounted for, if relations still are. -/
theorem Linked.of_keepsLinks {m' : Model} (h : m.Linked) (hkeeps : KeepsLinks m m')
    (hrelations : ∀ r, r ∈ m'.relations ↔
      ∃ eq ∈ m'.equations, DerivativeRelation.ofEquation? eq = some r) : m'.Linked where
  kinds := by
    intro v hv
    rw [hkeeps.registered] at hv
    obtain ⟨kind, hkind, hfits⟩ := h.kinds v hv
    exact ⟨kind, (hkeeps.kind v hv).trans hkind, hfits.mono (hkeeps.made v hv) hkeeps.relations⟩
  relations := hrelations
  derivative := fun {_ x} hlink => (h.derivative (hkeeps.derivative x ▸ hlink)).mono hkeeps.furthers
  differentiated := fun {d _} hlink =>
    (h.differentiated (hkeeps.differentiated d ▸ hlink)).mono hkeeps.furthers

/-- No operation but a link by hand makes a link or a kind that equations do not account for. -/
theorem Linked.run (h : m.Linked) (happart : m.RegisteredApart) {op : Operation}
    (hvalid : op.Valid m) (hhand : ¬ op.LinksByHand) : (op.run m).Linked := by
  rcases run_links_cases happart hhand with
    hkeeps | ⟨eq, -, hlearns⟩ | ⟨v, _, _, _, rfl, hfree, hclassify, heq⟩ | rfl
  · refine h.of_keepsLinks hkeeps.toKeepsLinks ?_
    rw [hkeeps.relations_eq, hkeeps.equations_eq]
    exact h.relations
  · refine h.of_keepsLinks hlearns.toKeepsLinks fun r => ?_
    simp only [hlearns.mem_relations_iff, hlearns.mem_equations_iff, h.relations, or_and_right,
      exists_or, exists_eq_left]
  · rw [heq]
    exact h.register happart hvalid hfree hclassify
  · exact h.resolveLinks happart.exist

end Operations

/-- In every model that comes about without links by hand, kinds and links are accounted for. -/
theorem Reachable.linked {m : Model} (h : m.Reachable fun _ op => ¬ op.LinksByHand) : m.Linked := by
  induction h with
  | start => exact linked_empty
  | step op hrun hvalid hhand ih => exact ih.run (Reachable.registeredApart hrun) hvalid hhand

end Model

end FlatDae
