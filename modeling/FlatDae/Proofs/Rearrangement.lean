/-
Module: FlatDae.Proofs.Rearrangement
Purpose: Texts that declare the same in another order. Where things stand in a text, the order of its
  components and which side of an equation is the left one mean nothing for whether there is a model, nor
  for the kinds of the variables: these are the ones that the text declares, and no link that is made on
  the way changes one of them.
Main exports: Source.Expression.unplaced, Source.Model.Rearranged, Source.Model.Rearranged.wellFormed,
  Source.Model.Rearranged.declaredKind_eq, Model.ofText_kinds
-/
import FlatDae.Proofs.DeclaredKinds

namespace FlatDae

open Elaboration (timeName)

namespace Source

/-! ### Places in a text -/

mutual

/-- The expression without the places at which its parts start. -/
def Expression.unplaced : Expression → Expression
  | .number _ value => .number 0 value
  | .truth _ value => .truth 0 value
  | .name _ n => .name 0 n
  | .signed _ sign operand => .signed 0 sign operand.unplaced
  | .binary _ op left right => .binary 0 op left.unplaced right.unplaced
  | .call _ function args output => .call 0 function (unplacedAll args) output

/-- The expressions without the places at which their parts start. -/
def unplacedAll : List Expression → List Expression
  | [] => []
  | e :: es => e.unplaced :: unplacedAll es

end

/-- The value without the places at which its parts start. -/
def AttributeValue.unplaced : AttributeValue → AttributeValue
  | .text _ s => .text 0 s
  | .expression e => .expression e.unplaced

/-- The setting without the places at which its parts start. -/
def AttributeSetting.unplaced (setting : AttributeSetting) : AttributeSetting :=
  { setting with start := 0, value := setting.value.unplaced }

/-- The type without the places at which its parts start. -/
def TypeDeclaration.unplaced (d : TypeDeclaration) : TypeDeclaration :=
  { d with start := 0, attributes := d.attributes.map (·.unplaced) }

/-- The function without the places at which its parts start. -/
def FunctionDeclaration.unplaced (d : FunctionDeclaration) : FunctionDeclaration :=
  { d with start := 0, outputs := d.outputs.map (·.unplaced) }

/-- The component without the places at which its parts start. -/
def Component.unplaced (c : Component) : Component :=
  { c with
    start := 0, attributes := c.attributes.map (·.unplaced), binding := c.binding.map (·.unplaced) }

/-- The equation without the places at which its parts start. -/
def Equation.unplaced (eq : Equation) : Equation := ⟨0, eq.lhs.unplaced, eq.rhs.unplaced⟩

/-- The equation with its sides swapped. -/
def Equation.turned (eq : Equation) : Equation := { eq with lhs := eq.rhs, rhs := eq.lhs }

/-- The equations are the same, or the one is the other with its sides swapped, wherever they stand. -/
def Equation.SameOrTurned (eq eq' : Equation) : Prop :=
  eq'.unplaced = eq.unplaced ∨ eq'.unplaced = eq.turned.unplaced

/-- The text declares the same types and functions and, in any order, the same components, and its
    equations are the same but for swapped sides. -/
structure Model.Rearranged (text text' : Model) : Prop where
  types : text'.types.map (·.unplaced) = text.types.map (·.unplaced)
  functions : text'.functions.map (·.unplaced) = text.functions.map (·.unplaced)
  components : (text'.components.map (·.unplaced)).Perm (text.components.map (·.unplaced))
  initialEquations : List.Forall₂ Equation.SameOrTurned text.initialEquations text'.initialEquations
  equations : List.Forall₂ Equation.SameOrTurned text.equations text'.equations

theorem unplacedAll_eq_map (es : List Expression) : unplacedAll es = es.map (·.unplaced) := by
  induction es with
  | nil => rfl
  | cons e es ih => rw [unplacedAll, ih, List.map_cons]

namespace Expression

mutual

@[simp]
theorem mentionsName_unplaced (e : Expression) : e.unplaced.mentionsName = e.mentionsName := by
  match e with
  | .number _ _ => rfl
  | .truth _ _ => rfl
  | .name _ _ => rfl
  | .signed _ _ operand => exact mentionsName_unplaced operand
  | .binary _ _ left right =>
      rw [unplaced, mentionsName, mentionsName, mentionsName_unplaced left, mentionsName_unplaced right]
  | .call _ _ args _ => exact anyMentionsName_unplacedAll args

theorem anyMentionsName_unplacedAll (es : List Expression) :
    anyMentionsName (unplacedAll es) = anyMentionsName es := by
  match es with
  | [] => rfl
  | e :: es =>
      rw [unplacedAll, anyMentionsName, anyMentionsName, mentionsName_unplaced e,
        anyMentionsName_unplacedAll es]

end

@[simp]
theorem asName?_unplaced (e : Expression) : e.unplaced.asName? = e.asName? := by
  fun_induction asName? e with
  | case1 => rfl
  | case2 _ operand ih => exact ih
  | case3 e hname hplus =>
      cases e with
      | name start n => exact absurd rfl (hname start n)
      | signed start sign operand =>
          cases sign with
          | plus => exact absurd rfl (hplus start operand)
          | minus => rfl
          | not => rfl
      | _ => rfl

@[simp]
theorem asDerivative?_unplaced (e : Expression) : e.unplaced.asDerivative? = e.asDerivative? := by
  fun_induction asDerivative? e with
  | case1 start arg => exact (if_pos rfl).trans arg.asName?_unplaced
  | case2 start function arg hder => exact if_neg hder
  | case3 start operand ih => exact ih
  | case4 e hcall hplus =>
      cases e with
      | call start function args output =>
          match args, output with
          | [], _ => rfl
          | [arg], none => exact absurd rfl (hcall start function arg)
          | [_], some _ => rfl
          | _ :: _ :: _, _ => rfl
      | signed start sign operand =>
          cases sign with
          | plus => exact absurd rfl (hplus start operand)
          | minus => rfl
          | not => rfl
      | _ => rfl

section WellFormed

variable {declares : String → Nat → Nat → Prop} {known : String → Prop}

mutual

@[simp]
theorem wellFormed_unplaced_iff (e : Expression) :
    e.unplaced.WellFormed declares known ↔ e.WellFormed declares known := by
  match e with
  | .number start value => exact iff_of_true (.number 0 value) (.number start value)
  | .truth start value => exact iff_of_true (.truth 0 value) (.truth start value)
  | .name _ _ => rw [unplaced, wellFormed_name_iff, wellFormed_name_iff]
  | .signed _ _ operand =>
      rw [unplaced, wellFormed_signed_iff, wellFormed_signed_iff, wellFormed_unplaced_iff operand]
  | .binary _ _ left right =>
      rw [unplaced, wellFormed_binary_iff, wellFormed_binary_iff, wellFormed_unplaced_iff left,
        wellFormed_unplaced_iff right]
  | .call _ _ args _ =>
      rw [unplaced, wellFormed_call_iff, wellFormed_call_iff, wellFormed_unplacedAll_iff args,
        unplacedAll_eq_map, List.length_map]

theorem wellFormed_unplacedAll_iff (es : List Expression) :
    (∀ e ∈ unplacedAll es, e.WellFormed declares known) ↔ ∀ e ∈ es, e.WellFormed declares known := by
  match es with
  | [] => exact Iff.rfl
  | e :: es =>
      rw [unplacedAll, List.forall_mem_cons, List.forall_mem_cons, wellFormed_unplaced_iff e,
        wellFormed_unplacedAll_iff es]

end

end WellFormed

end Expression

/-! ### Declarations -/

@[simp]
theorem settingExpressions_unplaced (settings : List AttributeSetting) :
    settingExpressions (settings.map (·.unplaced)) = (settingExpressions settings).map (·.unplaced) := by
  unfold settingExpressions
  rw [List.filterMap_map, List.map_filterMap]
  congr 1
  funext setting
  cases hvalue : setting.value <;>
    simp [AttributeSetting.unplaced, AttributeValue.unplaced, hvalue]

theorem lastValue?_unplaced (settings : List AttributeSetting) (name : String) :
    lastValue? (settings.map (·.unplaced)) name =
      (lastValue? settings name).map AttributeValue.unplaced := by
  induction settings with
  | nil => rfl
  | cons setting settings ih =>
      rw [List.map_cons, lastValue?, lastValue?, ih]
      cases lastValue? settings name with
      | some value => rfl
      | none =>
          change (if setting.name = name then some setting.value.unplaced else none) =
            Option.map AttributeValue.unplaced (if setting.name = name then some setting.value else none)
          split <;> rfl

/-- Whether the binding of a component mentions a name does not depend on places. -/
theorem Component.boundTo?_any_unplaced (c : Component) :
    c.boundTo?.any (·.mentionsName) = c.unplaced.boundTo?.any (·.mentionsName) := by
  have hall : c.unplaced.allSettings = c.allSettings.map (·.unplaced) := by
    unfold allSettings
    cases hbinding : c.binding with
    | none => simp [unplaced, hbinding]
    | some e =>
        have hstart : e.unplaced.start = 0 := by cases e <;> rfl
        simp [unplaced, hbinding, hstart, AttributeSetting.unplaced, AttributeValue.unplaced]
  unfold boundTo?
  rw [hall, lastValue?_unplaced]
  cases lastValue? c.allSettings Variable.bindingAttribute with
  | none => rfl
  | some value =>
      cases value with
      | text => rfl
      | expression e => exact e.mentionsName_unplaced.symm

theorem TypeDeclaration.wellFormed_unplaced_iff (d : TypeDeclaration) :
    d.unplaced.WellFormed ↔ d.WellFormed := by
  have hattributes : (∀ e ∈ settingExpressions d.unplaced.attributes,
        e.WellFormed (fun _ _ _ => False) fun _ => False) ↔
      ∀ e ∈ settingExpressions d.attributes, e.WellFormed (fun _ _ _ => False) fun _ => False := by
    simp [unplaced]
  constructor
  · exact fun h => ⟨h.base, h.builtinName, hattributes.1 h.attributes⟩
  · exact fun h => ⟨h.base, h.builtinName, hattributes.2 h.attributes⟩

section WellFormed

variable {isType : String → Prop} {declares : String → Nat → Nat → Prop} {known : String → Prop}

theorem FunctionDeclaration.wellFormed_unplaced_iff (d : FunctionDeclaration) :
    d.unplaced.WellFormed declares ↔ d.WellFormed declares := by
  have houtputs : (∀ e ∈ d.unplaced.outputs, e.WellFormed declares (· ∈ d.params)) ↔
      ∀ e ∈ d.outputs, e.WellFormed declares (· ∈ d.params) := by
    simp [unplaced]
  constructor
  · exact fun h => ⟨h.params, houtputs.1 h.outputs⟩
  · exact fun h => ⟨h.params, houtputs.2 h.outputs⟩

theorem Component.wellFormed_unplaced_iff (c : Component) :
    c.unplaced.WellFormed isType declares known ↔ c.WellFormed isType declares known := by
  have hattributes : (∀ e ∈ settingExpressions c.unplaced.attributes, e.WellFormed declares known) ↔
      ∀ e ∈ settingExpressions c.attributes, e.WellFormed declares known := by
    simp [unplaced]
  have hbinding : (∀ e, c.unplaced.binding = some e → e.WellFormed declares known) ↔
      ∀ e, c.binding = some e → e.WellFormed declares known := by
    simp [unplaced]
  constructor
  · exact fun h => ⟨⟨h.head.type, h.head.variability, h.head.causality⟩, hattributes.1 h.attributes,
      hbinding.1 h.binding⟩
  · exact fun h => ⟨⟨h.head.type, h.head.variability, h.head.causality⟩, hattributes.2 h.attributes,
      hbinding.2 h.binding⟩

theorem Equation.wellFormed_unplaced_iff (eq : Equation) :
    eq.unplaced.WellFormed declares known ↔ eq.WellFormed declares known := by
  constructor
  · exact fun h => ⟨eq.lhs.wellFormed_unplaced_iff.1 h.lhs, eq.rhs.wellFormed_unplaced_iff.1 h.rhs⟩
  · exact fun h => ⟨eq.lhs.wellFormed_unplaced_iff.2 h.lhs, eq.rhs.wellFormed_unplaced_iff.2 h.rhs⟩

/-- Which side is the left one does not matter to the rules. -/
theorem Equation.SameOrTurned.wellFormed {eq eq' : Equation} (h : eq.SameOrTurned eq')
    (heq : eq.WellFormed declares known) : eq'.WellFormed declares known := by
  rw [← Equation.wellFormed_unplaced_iff]
  rcases h with h | h
  · rw [h]
    exact eq.wellFormed_unplaced_iff.2 heq
  · rw [h]
    exact eq.turned.wellFormed_unplaced_iff.2 ⟨heq.rhs, heq.lhs⟩

end WellFormed

/-- A name is no derivative. -/
theorem Expression.asDerivative?_of_asName? {e : Expression} {n : String} (h : e.asName? = some n) :
    e.asDerivative? = none := by
  fun_induction asName? e with
  | case1 => rfl
  | case2 _ operand ih => exact ih h
  | case3 => cases h

/-- Which side is the left one does not matter to what an equation says of derivatives. -/
theorem Equation.derivative?_turned (eq : Equation) : eq.turned.derivative? = eq.derivative? := by
  unfold derivative? turned
  cases hleft : eq.lhs.asName? with
  | none =>
      cases hright : eq.rhs.asName? with
      | none => rfl
      | some d => cases eq.lhs.asDerivative? <;> rfl
  | some d =>
      rw [Expression.asDerivative?_of_asName? hleft]
      cases hright : eq.rhs.asName? with
      | none => cases eq.rhs.asDerivative? <;> rfl
      | some d' =>
          rw [Expression.asDerivative?_of_asName? hright]

theorem Equation.derivative?_unplaced (eq : Equation) : eq.unplaced.derivative? = eq.derivative? := by
  simp only [derivative?, unplaced, Expression.asName?_unplaced, Expression.asDerivative?_unplaced]

theorem Equation.SameOrTurned.derivative?_eq {eq eq' : Equation} (h : eq.SameOrTurned eq') :
    eq'.derivative? = eq.derivative? := by
  rw [← derivative?_unplaced]
  rcases h with h | h
  · rw [h, derivative?_unplaced]
  · rw [h, derivative?_unplaced, derivative?_turned]

/-! ### Texts -/

namespace Model.Rearranged

variable {text text' : Model} (h : text.Rearranged text')
include h

theorem declares_eq : text'.Declares = text.Declares := by
  have hunplaced (t : Model) (function : String) (inputs outputs : Nat) :
      t.Declares function inputs outputs ↔ ∃ d ∈ t.functions.map (·.unplaced), d.name = function ∧
        d.params.length = inputs ∧ d.outputs.length = outputs := by
    simp [Declares, FunctionDeclaration.unplaced]
  funext function inputs outputs
  rw [eq_iff_iff, hunplaced, hunplaced, h.functions]

theorem isType_eq : text'.IsType = text.IsType := by
  have hunplaced (t : Model) (name : String) :
      t.IsType name ↔ ∃ d ∈ t.types.map (·.unplaced), d.name = name := by
    simp [IsType, TypeDeclaration.unplaced]
  funext name
  rw [eq_iff_iff, hunplaced, hunplaced, h.types]

theorem isComponent_eq : text'.IsComponent = text.IsComponent := by
  have hunplaced (t : Model) (name : String) :
      t.IsComponent name ↔ ∃ c ∈ t.components.map (·.unplaced), c.name = name := by
    simp [IsComponent, Component.unplaced]
  funext name
  rw [eq_iff_iff, hunplaced, hunplaced]
  constructor
  · rintro ⟨c, hc, hname⟩
    exact ⟨c, h.components.mem_iff.1 hc, hname⟩
  · rintro ⟨c, hc, hname⟩
    exact ⟨c, h.components.mem_iff.2 hc, hname⟩

/-- A component of one text is one of the other text, wherever it stands. -/
theorem exists_component {c : Component} (hc : c ∈ text'.components) :
    ∃ c₀ ∈ text.components, c₀.unplaced = c.unplaced :=
  List.mem_map.1 (h.components.mem_iff.1 (List.mem_map.2 ⟨c, hc, rfl⟩))

/-- A text that declares the same in another order is well formed as well. -/
theorem wellFormed (htext : text.WellFormed) : text'.WellFormed := by
  have htypeNames : text'.types.map (·.name) = text.types.map (·.name) := by
    have hnames := congrArg (List.map TypeDeclaration.name) h.types
    rwa [List.map_map, List.map_map] at hnames
  have hfunctionNames : text'.functions.map (·.name) = text.functions.map (·.name) := by
    have hnames := congrArg (List.map FunctionDeclaration.name) h.functions
    rwa [List.map_map, List.map_map] at hnames
  have hcomponentNames : (text'.components.map (·.name)).Perm (text.components.map (·.name)) := by
    have hnames := h.components.map Component.name
    rwa [List.map_map, List.map_map] at hnames
  have hknown : text'.IsKnown = text.IsKnown := by
    funext name
    rw [IsKnown, IsKnown, h.isComponent_eq]
  constructor
  · rw [htypeNames]
    exact htext.typeNames
  · intro d hd
    have hmem : d.unplaced ∈ text.types.map (·.unplaced) := h.types ▸ List.mem_map.2 ⟨d, hd, rfl⟩
    obtain ⟨d₀, hd₀, hsame⟩ := List.mem_map.1 hmem
    rw [← d.wellFormed_unplaced_iff, ← hsame, d₀.wellFormed_unplaced_iff]
    exact htext.types d₀ hd₀
  · rw [hfunctionNames]
    exact htext.functionNames
  · intro d hd
    have hmem : d.unplaced ∈ text.functions.map (·.unplaced) :=
      h.functions ▸ List.mem_map.2 ⟨d, hd, rfl⟩
    obtain ⟨d₀, hd₀, hsame⟩ := List.mem_map.1 hmem
    rw [h.declares_eq, ← d.wellFormed_unplaced_iff, ← hsame, d₀.wellFormed_unplaced_iff]
    exact htext.functions d₀ hd₀
  · exact hcomponentNames.nodup_iff.2 htext.componentNames
  · rw [h.isComponent_eq]
    exact htext.timeFree
  · intro c hc
    obtain ⟨c₀, hc₀, hsame⟩ := h.exists_component hc
    rw [h.isType_eq, h.declares_eq, hknown, ← c.wellFormed_unplaced_iff, ← hsame,
      c₀.wellFormed_unplaced_iff]
    exact htext.components c₀ hc₀
  · intro eq heq
    obtain ⟨eq₀, heq₀, hsame⟩ := exists_left_of_forall₂ h.initialEquations heq
    rw [h.declares_eq, hknown]
    exact hsame.wellFormed (htext.initialEquations eq₀ heq₀)
  · intro eq heq
    obtain ⟨eq₀, heq₀, hsame⟩ := exists_left_of_forall₂ h.equations heq
    rw [h.declares_eq, hknown]
    exact hsame.wellFormed (htext.equations eq₀ heq₀)
  · intro c hc
    obtain ⟨c₀, hc₀, hsame⟩ := h.exists_component hc
    have halias : c₀.unplaced.aliasOf = c.unplaced.aliasOf := by rw [hsame]
    have hname : c₀.unplaced.name = c.unplaced.name := by rw [hsame]
    intro clause hclause
    obtain ⟨htarget, hother⟩ := htext.aliases c₀ hc₀ clause (halias.trans hclause)
    rw [h.isComponent_eq]
    exact ⟨htarget, fun heq => hother (heq.trans hname.symm)⟩

theorem domainOf?_eq (typeName : String) : text'.domainOf? typeName = text.domainOf? typeName := by
  have hbase (t : Model) : (t.types.find? (·.name = typeName)).bind (fun d => Domain.ofName? d.base) =
      ((t.types.map (·.unplaced)).find? (·.name = typeName)).bind fun d => Domain.ofName? d.base := by
    rw [List.find?_map, Option.bind_map]
    rfl
  unfold domainOf?
  rw [hbase, hbase, h.types]

theorem derivatives_eq : text'.derivatives = text.derivatives := by
  have hall : List.Forall₂ Equation.SameOrTurned (text.initialEquations ++ text.equations)
      (text'.initialEquations ++ text'.equations) :=
    List.rel_append h.initialEquations h.equations
  unfold derivatives
  generalize text.initialEquations ++ text.equations = eqs at hall
  generalize text'.initialEquations ++ text'.equations = eqs' at hall
  induction hall with
  | nil => rfl
  | cons hfirst _ ih => rw [List.filterMap_cons, List.filterMap_cons, hfirst.derivative?_eq, ih]

/-- A component has the same kind by its declaration and all equations of either text. -/
theorem declaredKind_eq {c c' : Component} (hsame : c'.unplaced = c.unplaced) :
    text'.declaredKind c' = text.declaredKind c := by
  have hunplaced (t : Model) (c : Component) : t.declaredKind c = t.declaredKind c.unplaced := by
    unfold declaredKind kindByWords
    rw [c.boundTo?_any_unplaced]
    rfl
  have hwords : text'.kindByWords c = text.kindByWords c := by
    funext domain
    unfold kindByWords
    rw [h.derivatives_eq]
  rw [hunplaced, hsame, ← hunplaced]
  unfold declaredKind
  rw [h.domainOf?_eq, hwords]

end Model.Rearranged

end Source

namespace Model

/-- The models have the same variables by name, in any order, and with the same kinds. -/
structure SameKinds (m m' : Model) : Prop where
  names : (m'.registered.toList.map fun v => (m'.store.get v).name).Perm
    (m.registered.toList.map fun v => (m.store.get v).name)
  kinds : ∀ v ∈ m.registered, ∀ v' ∈ m'.registered, (m'.store.get v').name = (m.store.get v).name →
    (m'.store.get v').kind = (m.store.get v).kind

/-- Models of texts that declare the same in another order have the same kinds. -/
theorem sameKinds_of_rearranged {text text' : Source.Model} {m m' : Model}
    (h : text.Rearranged text') (htext : text.WellFormed) (htext' : text'.WellFormed)
    (htranslates : text.TranslatesTo m) (htranslates' : text'.TranslatesTo m') (hm : m.Assembled)
    (hm' : m'.Assembled) : m.SameKinds m' := by
  constructor
  · have hnames := h.components.map Source.Component.name
    rw [List.map_map, List.map_map] at hnames
    rw [htranslates.names_eq, htranslates'.names_eq]
    exact hnames
  · intro v hv v' hv' hname
    obtain ⟨c, hc, hcname, kind, hkind, hdeclared⟩ := exists_left_of_forall₂
      (htranslates.kinds_eq htext hm) (Array.mem_toList_iff.2 hv)
    obtain ⟨c', hc', hcname', kind', hkind', hdeclared'⟩ := exists_left_of_forall₂
      (htranslates'.kinds_eq htext' hm') (Array.mem_toList_iff.2 hv')
    obtain ⟨c₀, hc₀, hsame⟩ := h.exists_component hc'
    -- the components are the same, as no other has the name
    have hnames : c₀.unplaced.name = c'.unplaced.name := by rw [hsame]
    have hc₀name : c₀.name = c.name := hnames.trans (hcname'.symm.trans (hname.trans hcname))
    obtain rfl := List.inj_on_of_nodup_map htext.componentNames hc₀ hc hc₀name
    rw [hkind, hkind', ← hdeclared, ← hdeclared', h.declaredKind_eq hsame.symm]

/-- In the model of a text every variable has the kind that its declaration and all equations of the text
    give it. It is the kind that the variable was classified as when it was registered, and no operation
    on the way to the model changed it, the last pass over the derivative relations included. Any text
    that declares the same components in another order or swaps sides of equations has a model too, in
    which every kind is the same. -/
theorem ofText_kinds {s : String} {m : Model} (h : Model.ofText s = .ok m) :
    ∃ text, Source.parse s = .ok text ∧
      List.Forall₂ (fun c v => (m.store.get v).name = c.name ∧
        ∃ kind, (m.store.get v).kind = some kind ∧ text.declaredKind c = some kind)
        text.components m.registered.toList ∧
      (∃ ops, m.ReachedBy (ops ++ [.resolveLinks])) ∧
      ∀ s' text', Source.parse s' = .ok text' → text.Rearranged text' →
        ∃ m', Model.ofText s' = .ok m' ∧ m.SameKinds m' := by
  obtain ⟨text, hparse, htext, htranslates, hassembled⟩ := ofText_eq_ok h
  refine ⟨text, hparse, htranslates.kinds_eq htext hassembled, hassembled.reached, ?_⟩
  intro s' text' hparse' hrearranged
  have htext' := hrearranged.wellFormed htext
  obtain ⟨m', hm'⟩ := Elaboration.exists_elaborateModel htext'
  obtain ⟨-, htranslates', hassembled'⟩ := Elaboration.elaborateModel_translates hm'
  refine ⟨m', ?_, sameKinds_of_rearranged hrearranged htext htext' htranslates htranslates' hassembled
    hassembled'⟩
  simp only [ofText, hparse', hm']

/-! ### A chain of derivatives -/

/-- A text where `v` is a derivative and has one, where the relations come before and after the variables
    that they are of, and with components of every other kind. -/
def chainText : String :=
  "model A output Real x; equation der(x) = v; a = der(v); Real v; Real a; " ++
    "parameter Real p = q; parameter Real q; constant Real c = 2; input Real u; discrete Real n; " ++
    "output Real y; Real z; Integer i; input Boolean b; end A;"

set_option maxRecDepth 100000 in
theorem chainText_isOk : (Model.ofText chainText).isOk = true := by decide +kernel

set_option maxRecDepth 100000 in
/-- Being a derivative counts before having one. -/
theorem chainText_declaredKinds : (match Source.parse chainText with
    | .ok text => text.components.map text.declaredKind
    | .error _ => []) =
      [some .differentiated, some .derivative, some .derivative, some (.dependentParameter .real),
        some (.independentParameter .real), some (.constant .real), some (.input .real),
        some (.discrete .real), some .output, some .algebraic, some (.discrete .integer),
        some (.input .boolean)] := by decide +kernel

/-- The kinds in the model are those of the text. -/
theorem ofText_kinds_chainText : ∃ m, Model.ofText chainText = .ok m ∧
    (∃ ops, m.ReachedBy (ops ++ [.resolveLinks])) ∧
    m.registered.toList.map (fun v => (m.store.get v).kind) =
      [some .differentiated, some .derivative, some .derivative, some (.dependentParameter .real),
        some (.independentParameter .real), some (.constant .real), some (.input .real),
        some (.discrete .real), some .output, some .algebraic, some (.discrete .integer),
        some (.input .boolean)] := by
  have hok := chainText_isOk
  have hdeclared := chainText_declaredKinds
  cases hm : Model.ofText chainText with
  | error failure =>
      rw [hm] at hok
      cases hok
  | ok m =>
      obtain ⟨text, hparse, hkinds, hreached, -⟩ := ofText_kinds hm
      rw [hparse] at hdeclared
      refine ⟨m, rfl, hreached, Eq.trans ?_ hdeclared⟩
      rw [← List.forall₂_eq_eq_eq, List.forall₂_map_left_iff, List.forall₂_map_right_iff]
      refine hkinds.flip.imp fun v c hcv => ?_
      obtain ⟨-, kind, hkind, hkind'⟩ := hcv
      rw [hkind, hkind']

end Model

end FlatDae
