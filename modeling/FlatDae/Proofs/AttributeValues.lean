/-
Module: FlatDae.Proofs.AttributeValues
Purpose: Where a variable of a text has its attributes from. What its own component sets comes first, then
  what the declaration of its type sets, which may be one that redeclares a built-in type under its own
  name, and then the default of its domain. In each place the last of several values counts.
Main exports: Source.Model.typeSettings, Source.Model.givenValue?, VariableType.builtin_attribute?,
  Source.Model.TranslatesTo.type_setFrom, Model.ofText_attributes
-/
import FlatDae.Proofs.AliasChains
import FlatDae.Proofs.DeclaredKinds

namespace FlatDae

/-! ### Defaults -/

/-- A table of values that are listed once has the value that is listed. -/
theorem getElem?_ofList_eq_lookup {α : Type} {values : List (String × α)}
    (hdistinct : (values.map Prod.fst).Nodup) (name : String) :
    (Std.TreeMap.ofList values)[name]? = values.lookup name := by
  cases hlookup : values.lookup name with
  | none =>
      apply Std.TreeMap.getElem?_ofList_of_contains_eq_false
      rw [List.lookup_eq_none_iff] at hlookup
      have hmissing (value : α) : (name, value) ∉ values := fun hmem => bne_iff_ne.1 (hlookup _ hmem) rfl
      simpa using hmissing
  | some value =>
      obtain ⟨before, after, rfl, -⟩ := List.lookup_eq_some_iff.1 hlookup
      refine Std.TreeMap.getElem?_ofList_of_mem Std.ReflCmp.compare_self ?_ (by simp)
      simp only [Std.LawfulEqCmp.compare_eq_iff_eq]
      exact List.pairwise_map.1 hdistinct

/-- A built-in type has the default attributes of its domain, and no others. -/
theorem VariableType.builtin_attribute? (domain : Domain) (name : String) :
    (builtin domain).attribute? name = (defaultAttributes domain).lookup name :=
  getElem?_ofList_eq_lookup (by cases domain <;> decide) name

namespace Source

/-! ### Values that a text gives -/

/-- What the text's declaration of a type sets; nothing if it has none. -/
def Model.typeSettings (text : Model) (typeName : String) : List AttributeSetting :=
  ((text.types.find? (·.name = typeName)).map (·.attributes)).getD []

/-- The value that the text gives to an attribute of a component: the last one that the component itself
    sets, or else the last one that the declaration of its type sets. -/
def Model.givenValue? (text : Model) (c : Component) (name : String) : Option AttributeValue :=
  lastValue? c.attributes name <|> lastValue? (text.typeSettings c.typeName) name

theorem lastValue?_append (settings more : List AttributeSetting) (name : String) :
    lastValue? (settings ++ more) name = (lastValue? more name <|> lastValue? settings name) := by
  induction settings with
  | nil => simp [lastValue?]
  | cons setting settings ih => simp [lastValue?, ih, Option.or_assoc]

/-- The binding of a component is a value of no other attribute. -/
theorem Component.lastValue?_allSettings (c : Component) {name : String}
    (hname : name ≠ Variable.bindingAttribute) :
    lastValue? c.allSettings name = lastValue? c.attributes name := by
  rw [allSettings, lastValue?_append]
  cases c.binding with
  | none => rfl
  | some e => simp [lastValue?, hname.symm]

namespace Model.TranslatesTo

variable {text : Source.Model} {m : FlatDae.Model} (h : text.TranslatesTo m)
include h

/-- A type of the model has what its declaration sets over the defaults of its domain. The type that is
    made for variables of a domain has no declaration. -/
theorem type_setFrom {typeName : String} {type : VariableType}
    (hfound : m.types.get? typeName = some type) :
    SetFrom m.Means (fun name => (VariableType.defaultAttributes type.domain).lookup name)
      (text.typeSettings typeName) type.attributes := by
  simp only [← VariableType.builtin_attribute?, typeSettings]
  cases hdeclaration : text.types.find? (·.name = typeName) with
  | some d =>
      obtain rfl : d.name = typeName := by simpa using List.find?_some hdeclaration
      obtain ⟨type', hfound', htranslates⟩ := h.types d (List.mem_of_find?_eq_some hdeclaration)
      obtain rfl := Option.some.inj (hfound.symm.trans hfound')
      exact htranslates.attributes.mono fun _ _ => False.elim
  | none =>
      rcases h.onlyTypes typeName type hfound with ⟨d, hd, hname⟩ | ⟨domain, -, rfl⟩
      · rw [List.find?_eq_none] at hdeclaration
        exact absurd (decide_eq_true hname) (hdeclaration d hd)
      · exact fun _ => rfl

/-- An attribute of a variable is the value that the text gives it, or the default of its domain. -/
theorem attribute?_spec {c : Component} {v : VarId} (hregistered : c.RegisteredAs m v) {name : String}
    (hname : name ≠ Variable.bindingAttribute) :
    match text.givenValue? c name with
    | some value => ∃ stored, (m.store.get v).attribute? name = some stored ∧
        value.TranslatesTo m.Means stored
    | none => (m.store.get v).attribute? name =
        (VariableType.defaultAttributes (m.store.get v).domain).lookup name := by
  obtain ⟨type, hfound, hdeclared, hdomain⟩ := hregistered.type
  have hown := hregistered.attributes name
  have htype := h.type_setFrom hfound name
  rw [c.lastValue?_allSettings hname] at hown
  rw [hdomain] at htype
  unfold Model.givenValue? Variable.attribute?
  rw [hdeclared, Option.bind_some]
  cases hset : lastValue? c.attributes name with
  | some value =>
      rw [hset] at hown
      obtain ⟨stored, hstored, hvalue⟩ := hown
      exact ⟨stored, by rw [hstored]; rfl, hvalue⟩
  | none =>
      rw [hset] at hown
      rw [hown]
      exact htype

end Model.TranslatesTo

end Source

namespace Model

/-- Every component of a text has a variable of the domain that its type has in the text. Each attribute of
    the variable, other than the binding, is the value that the text gives it: a text stays a text, and an
    expression is built as what it says. What is given no value has the default of the domain, if the domain
    has the attribute. -/
theorem ofText_attributes {s : String} {m : Model} (h : Model.ofText s = .ok m) :
    ∃ text, Source.parse s = .ok text ∧ ∀ c ∈ text.components, ∃ v, m.findVariable? c.name = some v ∧
      text.domainOf? c.typeName = some (m.store.get v).domain ∧
      ∀ name, name ≠ Variable.bindingAttribute →
        match text.givenValue? c name with
        | some value => ∃ stored, (m.store.get v).attribute? name = some stored ∧
            value.TranslatesTo m.Means stored
        | none => (m.store.get v).attribute? name =
            (VariableType.defaultAttributes (m.store.get v).domain).lookup name := by
  obtain ⟨text, hparse, htext, htranslates, hassembled⟩ := Model.ofText_eq_ok h
  refine ⟨text, hparse, fun c hc => ?_⟩
  obtain ⟨v, hv, hregistered⟩ := htranslates.exists_registered hc
  obtain ⟨type, hfound, -, hdomain⟩ := hregistered.type
  exact ⟨v, hassembled.registeredApart.findVariable?_eq_some_iff.2 ⟨hv, hregistered.name⟩,
    hdomain ▸ htranslates.domainOf?_eq htext hfound,
    fun name hname => htranslates.attribute?_spec hregistered hname⟩

/-- A declaration of `Real` itself that sets the unit twice, and two components, one of which has a unit of
    its own. -/
def ownUnitText : String :=
  "model A type Real = Real(unit = \"m\", unit = \"V\"); Real x; Real y(unit = \"A\"); end A;"

set_option maxRecDepth 100000 in
/-- The units and quantities of both variables. -/
theorem ownUnitText_units : (Model.ofText ownUnitText).toOption.map (fun m =>
      ["x", "y"].map fun component => ["unit", "quantity"].map fun name =>
        ((m.findVariable? component).bind fun v => (m.store.get v).attribute? name).bind
          Attribute.text?) =
    some [[some "V", some ""], [some "A", some ""]] := by decide +kernel

theorem ofText_attributes_ownUnitText : ∃ m, Model.ofText ownUnitText = .ok m ∧
    ∃ text, Source.parse ownUnitText = .ok text ∧ ∀ c ∈ text.components, ∃ v,
      m.findVariable? c.name = some v ∧
      match text.givenValue? c "unit" with
      | some value => ∃ stored, (m.store.get v).attribute? "unit" = some stored ∧
          value.TranslatesTo m.Means stored
      | none => (m.store.get v).attribute? "unit" =
          (VariableType.defaultAttributes (m.store.get v).domain).lookup "unit" := by
  have hunits := ownUnitText_units
  cases hm : Model.ofText ownUnitText with
  | error failure =>
      rw [hm] at hunits
      cases hunits
  | ok m =>
      obtain ⟨text, hparse, hcomponents⟩ := ofText_attributes hm
      refine ⟨m, rfl, text, hparse, fun c hc => ?_⟩
      obtain ⟨v, hv, -, hattributes⟩ := hcomponents c hc
      exact ⟨v, hv, hattributes "unit" (by decide)⟩

end Model

end FlatDae
