/-
Module: FlatDae.Proofs.RunInvariants
Purpose: What operations leave alone. Linking and calculating change variables in a few respects
  only. No operation changes what a variable was made as, and only registration adds to the registered
  variables and to their index, which therefore leads to exactly the variables that are called so in
  every reachable model. Most operations moreover keep what defines the values of parameters.
Main exports: Variable.SameMake, Variable.SameGiven, Variable.Updated, Model.Updates, Model.Keeps,
  Model.KeepsValues, Operation.Effect, Operation.effect, Operation.run_keeps_or, Model.Indexed,
  Model.RegisteredApart, Model.RegisteredApart.findVariable?_eq_some_iff, Model.Runs.registeredApart
-/
import FlatDae.Proofs.Calculation
import FlatDae.Proofs.FallibleLists
import Mathlib.Data.List.Nodup

namespace FlatDae

/-! ### Variables -/

namespace Variable

/-- Two variables were made alike, whatever was set in them afterwards. -/
structure SameMake (a b : Variable) : Prop where
  symbol : b.symbol = a.symbol
  domain : b.domain = a.domain
  causality : b.causality = a.causality
  variability : b.variability = a.variability

theorem SameMake.refl (a : Variable) : SameMake a a := ⟨rfl, rfl, rfl, rfl⟩

theorem SameMake.trans {a b c : Variable} (h : SameMake a b) (h' : SameMake b c) : SameMake a c :=
  ⟨h'.symbol.trans h.symbol, h'.domain.trans h.domain, h'.causality.trans h.causality,
    h'.variability.trans h.variability⟩

/-- The name of a variable is part of what it was made as. -/
theorem SameMake.name {a b : Variable} (h : SameMake a b) : b.name = a.name := by
  rw [b.name_eq, a.name_eq, h.symbol]

/-- Two variables were given the same: they were made alike and have the same type and attributes, but
    for values recorded in them. -/
structure SameGiven (a b : Variable) : Prop extends SameMake a b where
  declaredType : b.declaredType = a.declaredType
  attributes : ∀ name, name ≠ evaluatedBindingAttribute → b.attributes[name]? = a.attributes[name]?

namespace SameGiven

theorem refl (a : Variable) : SameGiven a a := ⟨.refl a, rfl, fun _ _ => rfl⟩

theorem trans {a b c : Variable} (h : SameGiven a b) (h' : SameGiven b c) : SameGiven a c where
  toSameMake := h.toSameMake.trans h'.toSameMake
  declaredType := h'.declaredType.trans h.declaredType
  attributes := fun name hname => (h'.attributes name hname).trans (h.attributes name hname)

variable {a b : Variable} (h : SameGiven a b)
include h

theorem binding?_eq : b.binding? = a.binding? := by
  rw [binding?, h.attributes bindingAttribute (by decide), binding?]

theorem start?_eq : b.start? = a.start? := by
  rw [start?, attribute?, h.attributes startAttribute (by decide), h.declaredType, start?, attribute?]

end SameGiven

/-- What linking and calculating do to a variable: they change its derivative links, record a value for
    its binding, and decide its kind where only a link can. -/
structure Updated (a b : Variable) : Prop extends SameGiven a b where
  aliasOf : b.aliasOf = a.aliasOf
  kind : b.kind = a.kind ∨ ∃ old new, a.kind = some old ∧ b.kind = some new ∧
    old.isUnlinked = true ∧ (new = .derivative ∨ new = .differentiated)

namespace Updated

theorem refl (a : Variable) : Updated a a := ⟨.refl a, rfl, Or.inl rfl⟩

theorem trans {a b c : Variable} (h : Updated a b) (h' : Updated b c) : Updated a c where
  toSameGiven := h.toSameGiven.trans h'.toSameGiven
  aliasOf := h'.aliasOf.trans h.aliasOf
  kind := by
    rcases h.kind with hsame | ⟨old, new, hold, hnew, hunlinked, hlinked⟩
    · rcases h'.kind with hsame' | ⟨old, new, hold, hnew, hunlinked, hlinked⟩
      · exact Or.inl (hsame'.trans hsame)
      · exact Or.inr ⟨old, new, hsame ▸ hold, hnew, hunlinked, hlinked⟩
    · rcases h'.kind with hsame' | ⟨old', new', hold', hnew', hunlinked', hlinked'⟩
      · exact Or.inr ⟨old, new, hold, hsame'.trans hnew, hunlinked, hlinked⟩
      · exact Or.inr ⟨old, new', hold, hnew', hunlinked, hlinked'⟩

/-- A link decides the kind where nothing else has. -/
theorem withLinkedKind (a : Variable) {linked : VariableKind}
    (hlinked : linked = .derivative ∨ linked = .differentiated) :
    Updated a (Model.withLinkedKind linked a) := by
  unfold Model.withLinkedKind
  cases hkind : a.kind with
  | none => exact .refl a
  | some kind =>
      by_cases hunlinked : kind.isUnlinked
      · simp only [hunlinked, if_true]
        exact ⟨⟨⟨rfl, rfl, rfl, rfl⟩, rfl, fun _ _ => rfl⟩, rfl,
          Or.inr ⟨kind, linked, hkind, rfl, hunlinked, hlinked⟩⟩
      · simp only [hunlinked, if_false, Bool.false_eq_true]
        exact .refl a

theorem withEvaluatedBinding (a : Variable) (value : Attribute) :
    Updated a (a.withAttribute evaluatedBindingAttribute value) := by
  refine ⟨⟨⟨rfl, rfl, rfl, rfl⟩, rfl, ?_⟩, rfl, Or.inl rfl⟩
  intro name hname
  simp only [withAttribute, Std.TreeMap.getElem?_insert]
  rw [if_neg fun heq => hname (Std.LawfulEqCmp.eq_of_compare heq).symm]

variable {a b : Variable} (h : Updated a b)
include h

/-- A kind that is left to links has no value, and no link gives it one. -/
theorem kind_any_eq (p : VariableKind → Bool)
    (hp : ∀ kind : VariableKind, kind.isUnlinked = true ∨ kind = .derivative ∨ kind = .differentiated →
      p kind = false) : b.kind.any p = a.kind.any p := by
  rcases h.kind with hsame | ⟨old, new, hold, hnew, hunlinked, hlinked⟩
  · rw [hsame]
  · rw [hold, hnew, Option.any_some, Option.any_some, hp old (Or.inl hunlinked), hp new (Or.inr hlinked)]

theorem isDependentParameter_eq : b.isDependentParameter = a.isDependentParameter := by
  refine h.kind_any_eq _ fun kind hkind => ?_
  cases kind with
  | dependentParameter => rcases hkind with h | h | h <;> cases h
  | _ => rfl

theorem isTabled_eq : b.isTabled = a.isTabled := by
  have hkind : b.kind.any (·.isConstantOrParameter) = a.kind.any (·.isConstantOrParameter) := by
    refine h.kind_any_eq _ fun kind hkind => ?_
    cases kind with
    | constant => rcases hkind with h | h | h <;> cases h
    | independentParameter => rcases hkind with h | h | h <;> cases h
    | dependentParameter => rcases hkind with h | h | h <;> cases h
    | _ => rfl
  rw [isTabled, hkind, h.domain, isTabled]

theorem value?_eq : b.value? = a.value? := by
  rw [value?, h.isDependentParameter_eq, h.binding?_eq, h.start?_eq, value?]

theorem definition?_eq (v : VarId) : b.definition? v = a.definition? v := by
  unfold definition?
  rw [h.isTabled_eq, h.value?_eq, h.isDependentParameter_eq, h.name, h.symbol]

end Updated

end Variable

namespace Model

/-! ### Linking and calculating -/

/-- Nothing but variables was changed, and those as linking and calculating do. -/
structure Updates (m m' : Model) : Prop where
  size : m'.store.cells.size = m.store.cells.size
  cells : ∀ v : VarId, (m.store.get v).Updated (m'.store.get v)
  rest : m' = { m with supply := m'.supply, store := m'.store }

namespace Updates

theorem refl (m : Model) : Updates m m := ⟨rfl, fun _ => .refl _, rfl⟩

theorem trans {m m' m'' : Model} (h : Updates m m') (h' : Updates m' m'') : Updates m m'' where
  size := h'.size.trans h.size
  cells := fun v => (h.cells v).trans (h'.cells v)
  rest := by
    rw [h'.rest]
    rw [h.rest]

theorem modify (m : Model) (v : VarId) {f : Variable → Variable}
    (hf : ∀ var : Variable, var.Updated (f var)) : Updates m (m.modifyVariable v f) where
  size := Variables.size_modify _ _ _
  cells := by
    intro w
    simp only [modifyVariable, Variables.get_modify]
    split
    · exact hf _
    · exact .refl _
  rest := rfl

theorem link (m : Model) (derivative differentiated : VarId) :
    Updates m (m.link derivative differentiated) := by
  unfold Model.link
  refine .trans (.modify m derivative ?_) (.trans (.modify _ differentiated ?_)
    (.trans (.modify _ derivative ?_) (.modify _ differentiated ?_)))
  · exact fun _ => ⟨⟨⟨rfl, rfl, rfl, rfl⟩, rfl, fun _ _ => rfl⟩, rfl, Or.inl rfl⟩
  · exact fun _ => ⟨⟨⟨rfl, rfl, rfl, rfl⟩, rfl, fun _ _ => rfl⟩, rfl, Or.inl rfl⟩
  · exact fun var => .withLinkedKind var (Or.inl rfl)
  · exact fun var => .withLinkedKind var (Or.inr rfl)

theorem linkPartner (m : Model) (v : VarId) (classification : Classification) :
    Updates m (m.linkPartner v classification) := by
  unfold Model.linkPartner
  split
  · exact .refl m
  · split
    · exact .link m _ _
    · exact .link m _ _
    · exact .refl m

theorem resolveLink (m : Model) (relation : DerivativeRelation) :
    Updates m (m.resolveLink relation).2 := by
  unfold Model.resolveLink
  split
  · split
    · exact .refl m
    · split
      · exact .refl m
      · exact .link m _ _
  · exact .refl m

theorem resolveLinks (m : Model) : Updates m m.resolveLinks.2 := by
  unfold Model.resolveLinks
  rw [← Array.foldl_toList]
  generalize m.relations.toList = relations
  generalize (0 : Nat) = linked
  induction relations generalizing linked m with
  | nil => exact .refl m
  | cons relation relations ih => exact .trans (.resolveLink m relation) (ih _ _)

theorem recordValue (m : Model) (found : Definition × Float) : Updates m (m.recordValue found) := by
  unfold Model.recordValue
  split
  · have hfresh : Updates m (m.fresh (Fresh.constant found.2)).2 := ⟨rfl, fun _ => .refl _, rfl⟩
    exact hfresh.trans (.modify _ found.1.target fun var =>
      .withEvaluatedBinding var (.expr (m.fresh (Fresh.constant found.2)).1))
  · exact .refl m

theorem recordValues (found : List (Definition × Float)) (m : Model) :
    Updates m (m.recordValues found) := by
  induction found generalizing m with
  | nil => exact .refl m
  | cons first found ih => exact .trans (.recordValue m first) (ih (m.recordValue first))

end Updates

/-! ### The frame of an operation -/

/-- All variables are still there and are what they were made as, and no more are registered. -/
structure Keeps (m m' : Model) : Prop where
  size_le : m.store.cells.size ≤ m'.store.cells.size
  made : ∀ v : VarId, v.index < m.store.cells.size → (m.store.get v).SameMake (m'.store.get v)
  registered : m'.registered = m.registered
  names : m'.names = m.names

namespace Keeps

theorem refl (m : Model) : Keeps m m := ⟨Nat.le_refl _, fun _ _ => .refl _, rfl, rfl⟩

theorem trans {m m' m'' : Model} (h : Keeps m m') (h' : Keeps m' m'') : Keeps m m'' where
  size_le := Nat.le_trans h.size_le h'.size_le
  made := fun v hv => (h.made v hv).trans (h'.made v (Nat.lt_of_lt_of_le hv h.size_le))
  registered := h'.registered.trans h.registered
  names := h'.names.trans h.names

theorem of_updates {m m' : Model} (h : Updates m m') : Keeps m m' where
  size_le := Nat.le_of_eq h.size.symm
  made := fun v _ => (h.cells v).toSameMake
  registered := by rw [h.rest]
  names := by rw [h.rest]

/-- A change of neither the variables nor the list of registered ones and its index. -/
theorem of_eq {m m' : Model} (hstore : m'.store = m.store) (hregistered : m'.registered = m.registered)
    (hnames : m'.names = m.names) : Keeps m m' where
  size_le := hstore ▸ Nat.le_refl _
  made := fun _ _ => hstore ▸ .refl _
  registered := hregistered
  names := hnames

/-- A change of a variable that leaves what it was made as. -/
theorem modify (m : Model) (v : VarId) {f : Variable → Variable}
    (hmake : ∀ var : Variable, var.SameMake (f var)) : Keeps m (m.modifyVariable v f) where
  size_le := Nat.le_of_eq (Variables.size_modify _ _ _).symm
  made := by
    intro w _
    simp only [modifyVariable, Variables.get_modify]
    split
    · exact hmake _
    · exact .refl _
  registered := rfl
  names := rfl

theorem create (m : Model) (new : Variable) : Keeps m (m.createVariable new).2 where
  size_le := by
    change _ ≤ (m.store.cells.push new).size
    rw [Array.size_push]
    exact Nat.le_succ _
  made := by
    intro w hw
    change (m.store.get w).SameMake ((m.store.create new).2.get w)
    rw [Variables.get_create _ _ hw]
    exact .refl _
  registered := rfl
  names := rfl

theorem prepare (m : Model) (v : VarId) (classification : Classification) (type : VariableType)
    (types : TypeRegistry) : Keeps m (m.prepare v classification type types) := by
  have htypes : Keeps m { m with types } := .of_eq rfl rfl rfl
  have htyped := htypes.trans (.modify _ v (f := fun var => { var with declaredType := some type })
    fun _ => ⟨rfl, rfl, rfl, rfl⟩)
  have hclassified := htyped.trans (.modify _ v
    (f := fun var => { var with kind := some classification.kind }) fun _ => ⟨rfl, rfl, rfl, rfl⟩)
  unfold Model.prepare
  split
  · exact hclassified.trans (.of_eq rfl rfl rfl)
  · exact hclassified

/-- Registering is preparing and linking, but for the entries in the list and in its index. -/
theorem linkPrepared (m : Model) (v : VarId) (classification : Classification) (type : VariableType)
    (types : TypeRegistry) :
    Keeps m ((m.prepare v classification type types).linkPartner v classification) :=
  (prepare m v classification type types).trans (.of_updates (.linkPartner _ v classification))

end Keeps

/-- The registered variables keep their definitions, the functions and the values found stay. -/
structure KeepsValues (m m' : Model) : Prop extends Keeps m m' where
  functions : m'.functions = m.functions
  parameters : m'.parameters = m.parameters
  parametersValid : m'.parametersValid = m.parametersValid
  definition? : ∀ v ∈ m.registered, m'.definition? v = m.definition? v

namespace KeepsValues

theorem refl (m : Model) : KeepsValues m m := ⟨.refl m, rfl, rfl, rfl, fun _ _ => rfl⟩

theorem trans {m m' m'' : Model} (h : KeepsValues m m') (h' : KeepsValues m' m'') :
    KeepsValues m m'' where
  toKeeps := h.toKeeps.trans h'.toKeeps
  functions := h'.functions.trans h.functions
  parameters := h'.parameters.trans h.parameters
  parametersValid := h'.parametersValid.trans h.parametersValid
  definition? := fun v hv =>
    (h'.definition? v (h.registered ▸ hv)).trans (h.definition? v hv)

theorem of_updates {m m' : Model} (h : Updates m m') : KeepsValues m m' where
  toKeeps := .of_updates h
  functions := by rw [h.rest]
  parameters := by rw [h.rest]
  parametersValid := by rw [h.rest]
  definition? := fun v _ => (h.cells v).definition?_eq v

/-- A change of nothing that values rest on. -/
theorem of_eq {m m' : Model} (hstore : m'.store = m.store) (hregistered : m'.registered = m.registered)
    (hnames : m'.names = m.names) (hfunctions : m'.functions = m.functions)
    (hparameters : m'.parameters = m.parameters) (hvalid : m'.parametersValid = m.parametersValid) :
    KeepsValues m m' where
  toKeeps := .of_eq hstore hregistered hnames
  functions := hfunctions
  parameters := hparameters
  parametersValid := hvalid
  definition? := fun v _ => by rw [Model.definition?, hstore, Model.definition?]

/-- A change of a variable that is no change of its definition. -/
theorem modify (m : Model) (v : VarId) {f : Variable → Variable}
    (hmake : ∀ var : Variable, var.SameMake (f var))
    (hdefinition : ∀ (var : Variable) (w : VarId), (f var).definition? w = var.definition? w) :
    KeepsValues m (m.modifyVariable v f) where
  toKeeps := .modify m v hmake
  functions := rfl
  parameters := rfl
  parametersValid := rfl
  definition? := by
    intro w _
    simp only [Model.definition?, modifyVariable, Variables.get_modify]
    split
    · exact hdefinition _ w
    · rfl

/-- Any change of a variable that is not registered. -/
theorem modify_unregistered (m : Model) {v : VarId} {f : Variable → Variable}
    (hmake : ∀ var : Variable, var.SameMake (f var)) (hv : v ∉ m.registered) :
    KeepsValues m (m.modifyVariable v f) where
  toKeeps := .modify m v hmake
  functions := rfl
  parameters := rfl
  parametersValid := rfl
  definition? := by
    intro w hw
    have hne : v ≠ w := fun heq => hv (heq ▸ hw)
    simp only [Model.definition?, modifyVariable, Variables.get_modify_of_ne _ hne]

theorem create (m : Model) (new : Variable)
    (hexist : ∀ v ∈ m.registered, v.index < m.store.cells.size) :
    KeepsValues m (m.createVariable new).2 where
  toKeeps := .create m new
  functions := rfl
  parameters := rfl
  parametersValid := rfl
  definition? := by
    intro w hw
    change ((m.store.create new).2.get w).definition? w = (m.store.get w).definition? w
    rw [Variables.get_create _ _ (hexist w hw)]

theorem learnRelation (m : Model) (eq : Equation) : KeepsValues m (m.learnRelation eq) := by
  unfold Model.learnRelation
  split
  · exact .of_eq rfl rfl rfl rfl rfl rfl
  · exact .refl m

theorem addInitialEquation (m : Model) (eq : Equation) : KeepsValues m (m.addInitialEquation eq) :=
  (learnRelation m eq).trans (.of_eq rfl rfl rfl rfl rfl rfl)

theorem addDaeEquation (m : Model) (eq : Equation) : KeepsValues m (m.addDaeEquation eq) :=
  (learnRelation m eq).trans (.of_eq rfl rfl rfl rfl rfl rfl)

/-- Preparing a variable that is not registered. -/
theorem prepare (m : Model) {v : VarId} (classification : Classification) (type : VariableType)
    (types : TypeRegistry) (hv : v ∉ m.registered) :
    KeepsValues m (m.prepare v classification type types) where
  toKeeps := .prepare m v classification type types
  functions := by unfold Model.prepare; split <;> rfl
  parameters := by unfold Model.prepare; split <;> rfl
  parametersValid := by unfold Model.prepare; split <;> rfl
  definition? := by
    intro w hw
    have hne : v ≠ w := fun heq => hv (heq ▸ hw)
    rw [Model.definition?, prepare_get_of_ne m hne, Model.definition?]

theorem definitions_eq {m m' : Model} (h : KeepsValues m m') : m'.definitions = m.definitions := by
  unfold definitions
  rw [h.registered, mapM_congr_mem m.registered.toList fun v hv =>
    h.definition? v (Array.mem_toList_iff.1 hv)]

/-- Models that define the same values have the same values. -/
theorem solve_eq {m m' : Model} (h : KeepsValues m m') : m'.solve = m.solve := by
  have hextend : m'.extendTable = m.extendTable := by
    funext table d
    simp only [extendTable, environment, h.functions]
  simp only [solve, h.definitions_eq, hextend]

end KeepsValues

/-- Registering is preparing and linking, but for the entries in the list and in its index. -/
theorem KeepsValues.linkPrepared {m : Model} {v : VarId} (hv : v ∉ m.registered)
    (classification : Classification) (type : VariableType) (types : TypeRegistry) :
    KeepsValues m ((m.prepare v classification type types).linkPartner v classification) :=
  (KeepsValues.prepare m classification type types hv).trans (.of_updates (.linkPartner _ v classification))

end Model

/-! ### What every operation does to the registered variables -/

/-- What the index does not have is not found. -/
theorem Model.findVariable?_eq_none_of_not_contains {m : Model} {name : String}
    (h : m.names.contains name = false) : m.findVariable? name = none := by
  rw [← Std.TreeMap.isSome_getElem?_eq_contains, Option.isSome_eq_false_iff, Option.isNone_iff_eq_none] at h
  rw [findVariable?, h]
  rfl

/-- What is found is registered, whatever the index says. -/
theorem Model.mem_registered_of_findVariable? {m : Model} {name : String} {v : VarId}
    (h : m.findVariable? name = some v) : v ∈ m.registered := by
  obtain ⟨place, -, hv⟩ := Option.bind_eq_some_iff.1 h
  exact Array.mem_of_getElem? hv

/-- A variable is registered, under a name that was free, or the model stays as it is. -/
theorem Model.addVariable_after (m : Model) (v : VarId) :
    (addVariable v).after m = m ∨
    ∃ classification type types, m.findVariable? (m.store.get v).name = none ∧
      classify m.store (m.store.get v) m.relations = .ok classification ∧
      m.types.assign (m.store.get v) = .ok (type, types) ∧
      (addVariable v).after m = m.register v classification type types := by
  unfold Action.after
  rw [addVariable_run]
  by_cases htaken : m.names.contains (m.store.get v).name
  · rw [if_pos htaken]
    exact Or.inl rfl
  · rw [if_neg htaken]
    cases hclassify : classify m.store (m.store.get v) m.relations with
    | error error => exact Or.inl rfl
    | ok classification =>
        cases hassign : m.types.assign (m.store.get v) with
        | error error => exact Or.inl rfl
        | ok assigned =>
            have hfree := findVariable?_eq_none_of_not_contains (Bool.eq_false_iff.2 htaken)
            exact Or.inr ⟨classification, assigned.1, assigned.2, hfree, rfl, rfl, rfl⟩

/-- A type is added or the model stays as it is. -/
theorem Model.addType_after (m : Model) (type : VariableType) :
    (addType type).after m =
      match m.types.add type with
      | .ok types => { m with types }
      | .error _ => m := by
  unfold Action.after
  rw [addType_run]
  cases m.types.add type <;> rfl

/-- A calculation records what it finds, and puts the table in place if it has found everything. -/
theorem Model.calculate_after_eq (m : Model) :
    calculate.after m = { m.withoutValues.recordValues m.foundValues with
      parameters := m.solve.toOption.getD {}, parametersValid := m.solve.toOption.isSome } ∧
    calculate.answer m = m.solve.map fun _ => () := by
  have houtcome := calculate_run m
  unfold Action.after Action.answer
  cases hsolve : m.solve with
  | error error =>
      rw [hsolve] at houtcome
      rw [houtcome]
      refine ⟨?_, rfl⟩
      rw [(Updates.recordValues m.foundValues m.withoutValues).rest]
      rfl
  | ok table =>
      rw [hsolve] at houtcome
      rw [houtcome.2.2]
      exact ⟨rfl, rfl⟩

theorem Model.Keeps.calculate (m : Model) : Keeps m (Model.calculate.after m) := by
  have hstart : Keeps m m.withoutValues := .of_eq rfl rfl rfl
  have hkeeps := hstart.trans (.of_updates (.recordValues m.foundValues m.withoutValues))
  rw [(calculate_after_eq m).1]
  exact hkeeps.trans (.of_eq rfl rfl rfl)

/-- An evaluation changes a model as a calculation does, if it does at all. -/
theorem Model.evaluate_after (m : Model) (e : Expr) :
    (evaluate e).after m = if m.parametersValid then m else calculate.after m := by
  unfold Action.after
  rw [evaluate_run]
  by_cases hvalid : m.parametersValid
  · rw [if_pos hvalid, if_pos hvalid]
    cases (m.environment m.parameters).evaluate e <;> rfl
  · rw [if_neg hvalid, if_neg hvalid]
    cases calculate.run m with
    | error error m' => rfl
    | ok a m' =>
        simp only
        cases (m'.environment m'.parameters).evaluate e <;> rfl

namespace Operation

open Model

/-- What an operation comes to. It leaves the model as it is if it is refused or has nothing to do; an
    evaluation that does anything calculates. -/
inductive Effect (m : Model) : Operation → Model → Prop where
  | nothing (op : Operation) : Effect m op m
  | makeNodes (supply : Supply) : Effect m (.makeNodes supply) { m with supply }
  | create (new : Variable) : Effect m (.create new) (m.createVariable new).2
  | setDeclaredType (v : VarId) (type : VariableType) :
      Effect m (.setDeclaredType v type)
        (m.modifyVariable v fun var => { var with declaredType := some type })
  | setAttribute (v : VarId) (name : String) (value : Attribute) :
      Effect m (.setAttribute v name value) (m.modifyVariable v (·.withAttribute name value))
  | setDerivative (v derivative : VarId) :
      Effect m (.setDerivative v derivative)
        (m.modifyVariable v fun var => { var with derivative := some derivative })
  | setDifferentiated (v differentiated : VarId) :
      Effect m (.setDifferentiated v differentiated)
        (m.modifyVariable v fun var => { var with differentiated := some differentiated })
  | setAlias (v target : VarId) (negated : Bool) :
      Effect m (.setAlias v target negated)
        (m.modifyVariable v fun var => { var with aliasOf := some { target, negated } })
  /-- A variable is registered under a name that was free. -/
  | register (v : VarId) (classification : Classification) (type : VariableType) (types : TypeRegistry)
      (hfree : m.findVariable? (m.store.get v).name = none)
      (hclassify : classify m.store (m.store.get v) m.relations = .ok classification)
      (hassign : m.types.assign (m.store.get v) = .ok (type, types)) :
      Effect m (.addVariable v) (m.register v classification type types)
  | addInitialEquation (eq : Equation) : Effect m (.addInitialEquation eq) (m.addInitialEquation eq)
  | addDaeEquation (eq : Equation) : Effect m (.addDaeEquation eq) (m.addDaeEquation eq)
  | addType (type : VariableType) (types : TypeRegistry) (hadd : m.types.add type = .ok types) :
      Effect m (.addType type) { m with types }
  | setFunction (f : ModelFunction) : Effect m (.setFunction f) (m.setFunction f)
  | setTime (symbol : Expr) : Effect m (.setTime symbol) { m with time := some symbol }
  | resolveLinks : Effect m .resolveLinks m.resolveLinks.2
  | calculate (op : Operation) : Effect m op (Model.calculate.after m)

theorem effect (m : Model) (op : Operation) : Effect m op (op.run m) := by
  cases op with
  | makeNodes supply => exact .makeNodes supply
  | create new => exact .create new
  | setDeclaredType v type => exact .setDeclaredType v type
  | setAttribute v name value => exact .setAttribute v name value
  | setDerivative v derivative => exact .setDerivative v derivative
  | setDifferentiated v differentiated => exact .setDifferentiated v differentiated
  | setAlias v target negated => exact .setAlias v target negated
  | addVariable v =>
      change Effect m _ ((Model.addVariable v).after m)
      rcases addVariable_after m v with heq | ⟨classification, type, types, hfree, hclassify, hassign, heq⟩
      · rw [heq]
        exact .nothing _
      · rw [heq]
        exact .register v classification type types hfree hclassify hassign
  | addInitialEquation eq => exact .addInitialEquation eq
  | addDaeEquation eq => exact .addDaeEquation eq
  | addType type =>
      change Effect m _ ((Model.addType type).after m)
      rw [addType_after]
      cases hadd : m.types.add type with
      | ok types => exact .addType type types hadd
      | error error => exact .nothing _
  | setFunction f => exact .setFunction f
  | setTime symbol => exact .setTime symbol
  | resolveLinks => exact .resolveLinks
  | calculate => exact .calculate _
  | evaluate e =>
      change Effect m _ ((Model.evaluate e).after m)
      rw [evaluate_after]
      split
      · exact .nothing _
      · exact .calculate _

/-- Every operation keeps the variables and the list of registered ones, but for a registration that
    succeeds. -/
theorem run_keeps_or (m : Model) (op : Operation) :
    Keeps m (op.run m) ∨
    ∃ v classification type types, op = .addVariable v ∧
      m.findVariable? (m.store.get v).name = none ∧
      classify m.store (m.store.get v) m.relations = .ok classification ∧
      m.types.assign (m.store.get v) = .ok (type, types) ∧
      op.run m = m.register v classification type types := by
  have hmodify (v : VarId) (f : Variable → Variable) (hf : ∀ var : Variable, var.SameMake (f var)) :
      Keeps m (m.modifyVariable v f) := .modify m v hf
  have heffect := op.effect m
  generalize op.run m = m' at heffect ⊢
  cases heffect with
  | nothing op => exact Or.inl (.refl m)
  | makeNodes supply => exact Or.inl (.of_eq rfl rfl rfl)
  | create new => exact Or.inl (.create m new)
  | setDeclaredType v type => exact Or.inl (hmodify v _ fun _ => ⟨rfl, rfl, rfl, rfl⟩)
  | setAttribute v name value => exact Or.inl (hmodify v _ fun _ => ⟨rfl, rfl, rfl, rfl⟩)
  | setDerivative v derivative => exact Or.inl (hmodify v _ fun _ => ⟨rfl, rfl, rfl, rfl⟩)
  | setDifferentiated v differentiated => exact Or.inl (hmodify v _ fun _ => ⟨rfl, rfl, rfl, rfl⟩)
  | setAlias v target negated => exact Or.inl (hmodify v _ fun _ => ⟨rfl, rfl, rfl, rfl⟩)
  | register v classification type types hfree hclassify hassign =>
      exact Or.inr ⟨v, classification, type, types, rfl, hfree, hclassify, hassign, rfl⟩
  | addInitialEquation eq => exact Or.inl (KeepsValues.addInitialEquation m eq).toKeeps
  | addDaeEquation eq => exact Or.inl (KeepsValues.addDaeEquation m eq).toKeeps
  | addType type types hadd => exact Or.inl (.of_eq rfl rfl rfl)
  | setFunction f => exact Or.inl (.of_eq rfl rfl rfl)
  | setTime symbol => exact Or.inl (.of_eq rfl rfl rfl)
  | resolveLinks => exact Or.inl (.of_updates (.resolveLinks m))
  | calculate op => exact Or.inl (.calculate m)

end Operation

/-! ### What holds of every reachable model -/

namespace Model

/-- The index has a place for a name if and only if the variable registered there is called so. -/
def Indexed (m : Model) : Prop :=
  ∀ name place, m.names[name]? = some place ↔
    ∃ v, m.registered[place]? = some v ∧ (m.store.get v).name = name

/-- Every registered variable exists and is in the index under its name, which no other has. -/
structure RegisteredApart (m : Model) : Prop where
  exist : ∀ v ∈ m.registered, v.index < m.store.cells.size
  indexed : m.Indexed

/-- A name is at one place only, so no two registered variables share it. -/
theorem Indexed.names {m : Model} (h : m.Indexed) :
    (m.registered.toList.map fun v => (m.store.get v).name).Nodup := by
  rw [List.nodup_iff_getElem?_ne_getElem?]
  intro i j hlt hsize hsame
  rw [List.length_map, Array.length_toList] at hsize
  have hj : m.registered[j]? = some m.registered[j] := Array.getElem?_eq_getElem hsize
  have hi : m.registered[i]? = some m.registered[i] := Array.getElem?_eq_getElem (Nat.lt_trans hlt hsize)
  rw [List.getElem?_map, List.getElem?_map, Array.getElem?_toList, Array.getElem?_toList, hi, hj,
    Option.map_some, Option.map_some, Option.some.injEq] at hsame
  have hplaces := ((h _ i).2 ⟨_, hi, hsame⟩).symm.trans ((h _ j).2 ⟨_, hj, rfl⟩)
  exact Nat.ne_of_lt hlt (Option.some.inj hplaces)

/-- Registering a variable whose name is free extends the index by the next place. -/
theorem Indexed.push {m : Model} (h : m.Indexed) {v : VarId}
    (hfree : ∀ w ∈ m.registered, (m.store.get w).name ≠ (m.store.get v).name) (valid : Bool) :
    Indexed { m with
      registered := m.registered.push v
      names := m.names.insert (m.store.get v).name m.registered.size
      parametersValid := valid } := by
  intro name place
  rw [Std.TreeMap.getElem?_insert, Array.getElem?_push]
  simp only [Std.LawfulEqCmp.compare_eq_iff_eq]
  by_cases hname : (m.store.get v).name = name
  · -- the free name is at the next place and nowhere else
    subst hname
    rw [if_pos rfl, Option.some.injEq]
    constructor
    · rintro rfl
      exact ⟨v, if_pos rfl, rfl⟩
    · rintro ⟨w, hw, hsame⟩
      split at hw
      · rename_i hplace
        exact hplace.symm
      · exact absurd hsame (hfree w (Array.mem_of_getElem? hw))
  · -- every other name is where it was, and the next place was empty
    rw [if_neg hname, h name place]
    constructor
    · rintro ⟨w, hw, hsame⟩
      have hplace : place ≠ m.registered.size := Nat.ne_of_lt (Array.getElem?_eq_some_iff.1 hw).1
      exact ⟨w, (if_neg hplace).trans hw, hsame⟩
    · rintro ⟨w, hw, hsame⟩
      split at hw
      · cases hw
        exact absurd hsame hname
      · exact ⟨w, hw, hsame⟩

namespace RegisteredApart

variable {m m' : Model} (h : m.RegisteredApart)
include h

theorem names : (m.registered.toList.map fun v => (m.store.get v).name).Nodup := h.indexed.names

/-- The index leads to the variables that are called so. -/
theorem findVariable?_eq_some_iff {name : String} {v : VarId} :
    m.findVariable? name = some v ↔ v ∈ m.registered ∧ (m.store.get v).name = name := by
  simp only [findVariable?, bind, Option.bind_eq_some_iff, h.indexed name]
  constructor
  · rintro ⟨place, ⟨w, hw, hname⟩, hv⟩
    rw [hw, Option.some.injEq] at hv
    subst hv
    exact ⟨Array.mem_of_getElem? hw, hname⟩
  · rintro ⟨hv, hname⟩
    obtain ⟨place, hplace⟩ := Array.getElem?_of_mem hv
    exact ⟨place, ⟨v, hplace, hname⟩, hplace⟩

/-- A name is taken if it is that of a registered variable. -/
theorem isSome_findVariable?_iff {name : String} :
    (m.findVariable? name).isSome = true ↔ ∃ v ∈ m.registered, (m.store.get v).name = name := by
  simp only [Option.isSome_iff_exists, h.findVariable?_eq_some_iff]

/-- The index has the names of the registered variables. -/
theorem contains_eq (name : String) : m.names.contains name = (m.findVariable? name).isSome := by
  rw [Bool.eq_iff_iff, h.isSome_findVariable?_iff, ← Std.TreeMap.isSome_getElem?_eq_contains]
  simp only [Option.isSome_iff_exists, h.indexed name]
  constructor
  · rintro ⟨place, v, hv, hname⟩
    exact ⟨v, Array.mem_of_getElem? hv, hname⟩
  · rintro ⟨v, hv, hname⟩
    obtain ⟨place, hplace⟩ := Array.getElem?_of_mem hv
    exact ⟨place, v, hplace, hname⟩

/-- A free name is that of no registered variable. -/
theorem name_ne {name : String} (hfree : m.findVariable? name = none) {w : VarId} (hw : w ∈ m.registered) :
    (m.store.get w).name ≠ name := by
  intro hsame
  rw [h.findVariable?_eq_some_iff.2 ⟨hw, hsame⟩] at hfree
  cases hfree

theorem not_mem_registered {v : VarId} (hfree : m.findVariable? (m.store.get v).name = none) :
    v ∉ m.registered :=
  fun hv => h.name_ne hfree hv rfl

theorem of_keeps (hkeeps : Keeps m m') : m'.RegisteredApart where
  exist := by
    intro v hv
    rw [hkeeps.registered] at hv
    exact Nat.lt_of_lt_of_le (h.exist v hv) hkeeps.size_le
  indexed := by
    intro name place
    rw [hkeeps.names, hkeeps.registered, h.indexed name place]
    refine exists_congr fun v => and_congr_right fun hv => ?_
    rw [(hkeeps.made v (h.exist v (Array.mem_of_getElem? hv))).name]

theorem register {v : VarId} (hexist : v.index < m.store.cells.size)
    (hfree : m.findVariable? (m.store.get v).name = none) (classification : Classification)
    (type : VariableType) (types : TypeRegistry) :
    (m.register v classification type types).RegisteredApart := by
  have hkeeps := Keeps.linkPrepared m v classification type types
  have hlinked := h.of_keeps hkeeps
  have hname := (hkeeps.made v hexist).name
  refine ⟨?_, ?_⟩
  · intro w hw
    rcases Array.mem_push.1 hw with hold | rfl
    · exact hlinked.exist w hold
    · exact Nat.lt_of_lt_of_le hexist hkeeps.size_le
  · unfold Model.register
    rw [← hname]
    refine hlinked.indexed.push (fun w hw => ?_) false
    rw [hkeeps.registered] at hw
    rw [(hkeeps.made w (h.exist w hw)).name, hname]
    exact h.name_ne hfree hw

end RegisteredApart

theorem RegisteredApart.of_empty {m : Model} (hregistered : m.registered = #[]) (hnames : m.names = ∅) :
    m.RegisteredApart where
  exist := fun v hv => by simp [hregistered] at hv
  indexed := fun name place => by simp [hregistered, hnames]

theorem registeredApart_empty : RegisteredApart {} := .of_empty rfl rfl

theorem Runs.registeredApart {allowed : Model → Operation → Prop} {m₀ m : Model}
    (h₀ : m₀.RegisteredApart) (h : Runs allowed m₀ m) : m.RegisteredApart := by
  induction h with
  | start => exact h₀
  | @step m op _ hvalid _ ih =>
      rcases op.run_keeps_or m with hkeeps | ⟨v, classification, type, types, rfl, hfree, _, _, heq⟩
      · exact ih.of_keeps hkeeps
      · rw [heq]
        exact ih.register hvalid hfree classification type types

theorem Reachable.registeredApart {allowed : Model → Operation → Prop} {m : Model}
    (h : m.Reachable allowed) : m.RegisteredApart :=
  Runs.registeredApart registeredApart_empty h

end Model

end FlatDae
