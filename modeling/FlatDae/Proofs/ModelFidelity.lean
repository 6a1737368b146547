/-
Module: FlatDae.Proofs.ModelFidelity
Purpose: Nothing of a text is lost, doubled or bound to the wrong thing in its model. The variables are
  the components in the order of the text, and row by row the residuals are the differences of the sides
  of its equations. A symbol in an equation or an attribute is the symbol of the one variable that has
  its name, and a symbol in an output of a function is the input of that function, also if a component
  has the same name.
Main exports: Model.Holds, Model.WellNamed, Source.Model.Faithful, Source.Model.TranslatesTo.of_holds,
  Source.Model.TranslatesTo.wellNamed, Model.ofText_faithful
-/
import FlatDae.Proofs.ModelTranslation
import FlatDae.Proofs.TextReading

namespace FlatDae

open FlatDae.Expr (Graph)
open Elaboration (timeName)

/-! ### Residuals -/

/-- A residual has the difference of the sides of every equation as a row, in order. -/
theorem Equation.stackResiduals_rows (eqs : List Equation) (supply : Supply) :
    ∃ id rows, ((stackResiduals eqs).run supply).1 = .vertcat id rows ∧
      List.Forall₂ (fun eq row => ∃ id, row = .binary id .sub eq.rhs eq.lhs) eqs rows := by
  have hrows (supply : Supply) : List.Forall₂ (fun eq row => ∃ id, row = .binary id .sub eq.rhs eq.lhs)
      eqs ((eqs.mapM residual).run supply).1 := by
    induction eqs generalizing supply with
    | nil => exact .nil
    | cons eq eqs ih =>
        rw [List.mapM_cons]
        exact .cons ⟨supply.next, rfl⟩ (ih { next := supply.next + 1 })
  exact ⟨_, _, rfl, hrows supply⟩

namespace Source

/-- The row is the right side of the equation less its left side. -/
def Equation.IsRow (means : String → Expr → Prop) (eq : Equation) (row : Expr) : Prop :=
  ∃ id lhs rhs, row = .binary id .sub rhs lhs ∧ eq.lhs.TranslatesTo means lhs ∧
    eq.rhs.TranslatesTo means rhs

/-- The residual has a row for every equation, in order. -/
def IsResidual (means : String → Expr → Prop) (eqs : List Equation) (residual : Expr) : Prop :=
  ∃ id rows, residual = .vertcat id rows ∧ List.Forall₂ (Equation.IsRow means) eqs rows

/-- The residual of the equations of a model is that of the equations of the text. -/
theorem isResidual_stackResiduals {means : String → Expr → Prop} {eqs : List Equation}
    {built : List FlatDae.Equation} (h : List.Forall₂ (Equation.TranslatesTo means) eqs built)
    (supply : Supply) :
    IsResidual means eqs ((FlatDae.Equation.stackResiduals built).run supply).1 := by
  obtain ⟨id, rows, hresidual, hrows⟩ := FlatDae.Equation.stackResiduals_rows built supply
  refine ⟨id, rows, hresidual, ?_⟩
  clear hresidual
  induction h generalizing rows with
  | nil =>
      cases hrows
      exact .nil
  | cons heq _ ih =>
      cases hrows with
      | cons hrow hrest =>
          obtain ⟨id', rfl⟩ := hrow
          exact .cons ⟨id', _, _, rfl, heq.lhs, heq.rhs⟩ (ih _ hrest)

end Source

/-! ### Expressions of a model -/

namespace Model

/-- The expressions in the equations and in the attributes of a model. -/
inductive Holds (m : Model) : Expr → Prop where
  | lhs {eq : Equation} (h : eq ∈ m.initialEquations ∨ eq ∈ m.daeEquations) : Holds m eq.lhs
  | rhs {eq : Equation} (h : eq ∈ m.initialEquations ∨ eq ∈ m.daeEquations) : Holds m eq.rhs
  /-- An attribute of a variable itself, its binding among them. -/
  | own {v : VarId} {name : String} {x : Expr} (hv : v ∈ m.registered)
      (h : (m.store.get v).attributes[name]? = some (Attribute.expr x)) : Holds m x
  /-- An attribute that variables have from their type. -/
  | ofType {typeName name : String} {type : VariableType} {x : Expr}
      (htype : m.types.get? typeName = some type)
      (h : type.attributes[name]? = some (Attribute.expr x)) : Holds m x

/-- Every symbol in the model is the one that its name stands for where it occurs. -/
structure WellNamed (m : Model) : Prop where
  /-- All nodes are those of one graph, where no two have the same identity. -/
  nodes : ∃ g, m.NodesIn g
  symbol : ∀ name symbol, m.Means name symbol → ∃ id, symbol = .symbol id name
  unique : ∀ name symbol symbol', m.Means name symbol → m.Means name symbol' → symbol = symbol'
  held : ∀ x, m.Holds x → ∀ id name, Expr.Within (.symbol id name) x → m.Means name (.symbol id name)
  input : ∀ (function : String) (f : ModelFunction), m.functions[function]? = some f →
    ∀ output ∈ f.outputs, ∀ id name, Expr.Within (.symbol id name) output →
      Expr.symbol id name ∈ f.inputs ∧ ∀ id', Expr.symbol id' name ∈ f.inputs → id' = id
  /-- No name of an equation stands for an input of a function. -/
  apart : ∀ (function : String) (f : ModelFunction), m.functions[function]? = some f →
    ∀ input ∈ f.inputs, ∀ name, ¬ m.Means name input
  /-- No two functions share an input. -/
  own : ∀ (function function' : String) (f f' : ModelFunction), m.functions[function]? = some f →
    m.functions[function']? = some f' → ∀ input ∈ f.inputs, input ∈ f'.inputs → function = function'

end Model

namespace Source

/-- The expression of an attribute that is set is one of those that the settings have. -/
theorem mem_settingExpressions_of_lastValue? {settings : List AttributeSetting} {name : String}
    {e : Expression} (h : lastValue? settings name = some (.expression e)) :
    e ∈ settingExpressions settings := by
  induction settings with
  | nil => cases h
  | cons setting settings ih =>
      rw [lastValue?] at h
      cases hlast : lastValue? settings name with
      | some value =>
          rw [hlast] at h
          have hmem := ih (hlast.trans h)
          rw [settingExpressions, List.filterMap_cons]
          split
          · exact hmem
          · exact List.mem_cons_of_mem _ hmem
      | none =>
          rw [hlast] at h
          by_cases hname : setting.name = name
          · rw [if_pos hname] at h
            have hvalue : setting.value = .expression e := Option.some.inj h
            simp [settingExpressions, hvalue]
          · simp [hname] at h

/-- An expression among the attributes says what one that is set says, or is a default. -/
theorem SetFrom.of_expr {means : String → Expr → Prop} {defaults : String → Option Attribute}
    {settings : List AttributeSetting} {attributes : Attributes}
    (h : SetFrom means defaults settings attributes) {name : String} {x : Expr}
    (hx : attributes[name]? = some (Attribute.expr x)) :
    (∃ e ∈ settingExpressions settings, e.TranslatesTo means x) ∨ defaults name = some (.expr x) := by
  have hname := h name
  split at hname
  · rename_i value hvalue
    obtain ⟨stored, hstored, htranslates⟩ := hname
    obtain rfl := Option.some.inj (hx.symm.trans hstored)
    cases htranslates with
    | expression he => exact Or.inl ⟨_, mem_settingExpressions_of_lastValue? hvalue, he⟩
  · exact Or.inr (hname.symm.trans hx)

/-- The rules ask for nothing if fewer names and functions are known. -/
theorem Expression.WellFormed.mono {declares declares' : String → Nat → Nat → Prop}
    {known known' : String → Prop} {e : Expression} (h : e.WellFormed declares known)
    (hdeclares : ∀ function inputs outputs, declares function inputs outputs →
      declares' function inputs outputs)
    (hknown : ∀ name, known name → known' name) : e.WellFormed declares' known' := by
  induction h with
  | number start value => exact .number start value
  | truth start value => exact .truth start value
  | name start hname => exact .name start (hknown _ hname)
  | signed start sign _ ih => exact .signed start sign ih
  | binary start op _ _ ihleft ihright => exact .binary start op ihleft ihright
  | builtin start hbuiltin _ ih => exact .builtin start hbuiltin ih
  | declared start hbuiltin hdeclared _ hlength houtput ih =>
      exact .declared start hbuiltin (hdeclares _ _ _ hdeclared) ih hlength houtput

namespace Model.TranslatesTo

variable {text : Source.Model} {m : FlatDae.Model} (h : text.TranslatesTo m)
include h

/-- The variables have the names of the components, in the order of the text. -/
theorem names_eq : m.registered.toList.map (fun v => (m.store.get v).name) =
    text.components.map (·.name) := by
  have hcomponents := h.components
  generalize m.registered.toList = vs at hcomponents
  generalize text.components = cs at hcomponents
  induction hcomponents with
  | nil => rfl
  | cons hc _ ih => rw [List.map_cons, List.map_cons, ih, hc.name]

/-- A name stands for a symbol of that name. -/
theorem symbol_of_means {name : String} {symbol : Expr} (hmeans : m.Means name symbol) :
    ∃ id, symbol = .symbol id name := by
  rcases hmeans with ⟨rfl, htime⟩ | ⟨v, hv, rfl, rfl⟩
  · obtain ⟨id, hid⟩ := h.time
    exact ⟨id, Option.some.inj (htime.symm.trans hid)⟩
  · obtain ⟨c, -, hregistered⟩ := exists_left_of_forall₂ h.components (Array.mem_toList_iff.2 hv)
    obtain ⟨id, hid⟩ := hregistered.symbol
    exact ⟨id, by rw [hid, hregistered.name]⟩

variable (htext : text.WellFormed)
include htext

/-- What stands in a model says what a well formed expression says, or is a default of a built-in
    type. -/
theorem of_holds {x : Expr} (hx : m.Holds x) :
    (∃ e : Expression, e.WellFormed text.Declares text.IsKnown ∧ e.TranslatesTo m.Means x) ∨
      x ∈ Graph.shared := by
  have hequation {eq : FlatDae.Equation} (heq : eq ∈ m.initialEquations ∨ eq ∈ m.daeEquations) :
      ∃ eq' : Equation, eq'.WellFormed text.Declares text.IsKnown ∧ eq'.TranslatesTo m.Means eq := by
    rcases heq with heq | heq
    · obtain ⟨eq', hmem, htranslates⟩ :=
        exists_left_of_forall₂ h.initialEquations (Array.mem_toList_iff.2 heq)
      exact ⟨eq', htext.initialEquations eq' hmem, htranslates⟩
    · obtain ⟨eq', hmem, htranslates⟩ :=
        exists_left_of_forall₂ h.equations (Array.mem_toList_iff.2 heq)
      exact ⟨eq', htext.equations eq' hmem, htranslates⟩
  cases hx with
  | lhs heq =>
      obtain ⟨eq', hwf, htranslates⟩ := hequation heq
      exact Or.inl ⟨eq'.lhs, hwf.lhs, htranslates.lhs⟩
  | rhs heq =>
      obtain ⟨eq', hwf, htranslates⟩ := hequation heq
      exact Or.inl ⟨eq'.rhs, hwf.rhs, htranslates.rhs⟩
  | own hv hname =>
      obtain ⟨c, hc, hregistered⟩ := exists_left_of_forall₂ h.components (Array.mem_toList_iff.2 hv)
      rcases hregistered.attributes.of_expr hname with ⟨e, he, htranslates⟩ | hnone
      · refine Or.inl ⟨e, ?_, htranslates⟩
        have hwf := htext.components c hc
        rw [Component.allSettings, settingExpressions, List.filterMap_append, List.mem_append] at he
        rcases he with he | he
        · exact hwf.attributes e he
        · cases hbinding : c.binding with
          | none => simp [hbinding] at he
          | some binding =>
              simp only [hbinding, Option.map_some, Option.toList_some, List.filterMap_cons,
                List.filterMap_nil, List.mem_singleton] at he
              exact he ▸ hwf.binding binding hbinding
      · cases hnone
  | ofType htype hname =>
      have hdefault {domain : Domain} {name : String} {x : Expr}
          (hx : (VariableType.builtin domain).attributes[name]? = some (Attribute.expr x)) :
          x ∈ Graph.shared := builtin_drawnFrom domain name x hx
      rcases h.onlyTypes _ _ htype with ⟨d, hd, rfl⟩ | ⟨domain, -, rfl⟩
      · obtain ⟨type', htype', htranslates⟩ := h.types d hd
        obtain rfl := Option.some.inj (htype.symm.trans htype')
        rcases htranslates.attributes.of_expr hname with ⟨e, he, hvalue⟩ | hbuiltin
        · exact Or.inl ⟨e, ((htext.types d hd).attributes e he).mono (fun _ _ _ => False.elim)
            fun _ => False.elim, hvalue.mono fun _ _ => False.elim⟩
        · exact Or.inr (hdefault hbuiltin)
      · exact Or.inr (hdefault hname)

/-- No two variables have the same name. -/
theorem eq_of_name {v w : VarId} (hv : v ∈ m.registered) (hw : w ∈ m.registered)
    (hname : (m.store.get v).name = (m.store.get w).name) : v = w := by
  have hdistinct : (m.registered.toList.map fun v => (m.store.get v).name).Nodup := by
    rw [h.names_eq]
    exact htext.componentNames
  exact List.inj_on_of_nodup_map hdistinct (Array.mem_toList_iff.2 hv) (Array.mem_toList_iff.2 hw) hname

/-- No variable has the name of the time variable. -/
theorem name_ne_timeName {v : VarId} (hv : v ∈ m.registered) : (m.store.get v).name ≠ timeName := by
  intro htime
  obtain ⟨c, hc, hregistered⟩ := exists_left_of_forall₂ h.components (Array.mem_toList_iff.2 hv)
  exact htext.timeFree ⟨c, hc, hregistered.name.symm.trans htime⟩

/-- A name stands for one symbol. -/
theorem means_unique {name : String} {symbol symbol' : Expr} (hmeans : m.Means name symbol)
    (hmeans' : m.Means name symbol') : symbol = symbol' := by
  rcases hmeans with ⟨rfl, htime⟩ | ⟨v, hv, hname, rfl⟩ <;>
    rcases hmeans' with ⟨htimeName, htime'⟩ | ⟨w, hw, hname', rfl⟩
  · exact Option.some.inj (htime.symm.trans htime')
  · exact absurd hname' (h.name_ne_timeName htext hw)
  · exact absurd (hname.trans htimeName) (h.name_ne_timeName htext hv)
  · rw [h.eq_of_name htext hv hw (hname.trans hname'.symm)]

/-- Every symbol is the one that its name stands for where it occurs. -/
theorem wellNamed (hm : m.Assembled) : m.WellNamed where
  nodes := hm.nodes
  symbol := fun _ _ hmeans => h.symbol_of_means hmeans
  unique := fun _ _ _ hmeans hmeans' => h.means_unique htext hmeans hmeans'
  held := by
    intro x hx id name hwithin
    rcases h.of_holds htext hx with ⟨e, -, htranslates⟩ | hshared
    · exact htranslates.means_of_within (fun _ _ hmeans => h.symbol_of_means hmeans) hwithin
    · rcases Graph.mem_of_within hshared hwithin with hsymbol | hsymbol | hsymbol | hsymbol <;>
        cases hsymbol
  input := by
    intro function f hf output houtput id name hwithin
    obtain ⟨d, hd, rfl⟩ := h.onlyFunctions function f hf
    obtain ⟨f', hf', htranslates⟩ := h.functions d hd
    obtain rfl := Option.some.inj (hf.symm.trans hf')
    have hinput {param : String} {input : Expr} (hmem : (param, input) ∈ d.params.zip f.inputs) :
        ∃ id, input = .symbol id param :=
      (List.forall₂_iff_zip.1 htranslates.inputs).2 hmem
    obtain ⟨e, -, he⟩ := exists_left_of_forall₂ htranslates.outputs houtput
    have hmeans := he.means_of_within (fun _ _ => hinput) hwithin
    refine ⟨(List.of_mem_zip hmeans).2, fun id' hmem' => ?_⟩
    exact (Expr.symbol.inj (htranslates.input_unique (htext.functions d hd).params hmem'
      (List.of_mem_zip hmeans).2 (by rw [Expr.print_symbol, Expr.print_symbol]))).1
  apart := hm.inputsApart
  own := hm.functionsApart

end Model.TranslatesTo

/-- The model is that of the text and nothing else: the variables are the components in the order of the
    text, the residuals have one row for every equation, and every symbol is the one that is meant. -/
structure Model.Faithful (text : Source.Model) (m : FlatDae.Model) : Prop
    extends text.TranslatesTo m, m.WellNamed where
  names : m.registered.toList.map (fun v => (m.store.get v).name) = text.components.map (·.name)
  initialResidual : IsResidual m.Means text.initialEquations m.initialResidual.1
  residual : IsResidual m.Means text.equations m.daeResidual.1

end Source

theorem Model.exists_ofText_of_isOk {s : String} (h : (Model.ofText s).isOk = true) :
    ∃ m, Model.ofText s = .ok m := by
  cases hm : Model.ofText s with
  | error failure =>
      rw [hm] at h
      cases h
  | ok m => exact ⟨m, rfl⟩

/-- A text that has a model is read as a tree that has it. -/
theorem Model.exists_elaborateModel_of_ofText {s : String} {m : Model} (h : Model.ofText s = .ok m) :
    ∃ text, Source.parse s = .ok text ∧ Elaboration.elaborateModel text = .ok m := by
  unfold Model.ofText at h
  cases hparse : Source.parse s with
  | error failure =>
      rw [hparse] at h
      cases h
  | ok text =>
      cases helaborate : Elaboration.elaborateModel text with
      | error problems =>
          simp only [hparse, helaborate] at h
          cases h
      | ok m' =>
          simp only [hparse, helaborate] at h
          obtain rfl := Except.ok.inj h
          exact ⟨text, rfl, helaborate⟩

/-- A model of a text is that of the tree that is read, which is well formed. -/
theorem Model.ofText_eq_ok {s : String} {m : Model} (h : Model.ofText s = .ok m) :
    ∃ text, Source.parse s = .ok text ∧ text.WellFormed ∧ text.TranslatesTo m ∧ m.Assembled := by
  obtain ⟨text, hparse, helaborate⟩ := Model.exists_elaborateModel_of_ofText h
  exact ⟨text, hparse, Elaboration.elaborateModel_translates helaborate⟩

/-- Nothing of a text that has a model is lost, doubled or bound to the wrong thing. -/
theorem Model.ofText_faithful {s : String} {m : Model} (h : Model.ofText s = .ok m) :
    ∃ text elements, Source.parse s = .ok text ∧ text.ReadFrom s elements ∧ text.Faithful m := by
  obtain ⟨text, hparse, htext, htranslates, hassembled⟩ := Model.ofText_eq_ok h
  obtain ⟨elements, hread⟩ := Source.parse_readFrom hparse
  exact ⟨text, elements, hparse, hread,
    { htranslates, htranslates.wellNamed htext hassembled with
      names := htranslates.names_eq
      initialResidual := Source.isResidual_stackResiduals htranslates.initialEquations _
      residual := Source.isResidual_stackResiduals htranslates.equations _ }⟩

/-- A text with its equations in three sections, where the input of a function is called like a
    component. -/
def mixedText : String :=
  "model A Real x; initial equation x = 2; equation der(x) = f(x); " ++
    "function f(x) = (x * x); equation y = x; Real y; end A;"

set_option maxRecDepth 100000 in
theorem mixedText_isOk : (Model.ofText mixedText).isOk = true := by decide +kernel

theorem exists_ofText_mixedText : ∃ m, Model.ofText mixedText = .ok m :=
  Model.exists_ofText_of_isOk mixedText_isOk

theorem Model.ofText_faithful_mixedText :
    ∃ m, Model.ofText mixedText = .ok m ∧ ∃ text elements, Source.parse mixedText = .ok text ∧
      text.ReadFrom mixedText elements ∧ text.Faithful m := by
  obtain ⟨m, hm⟩ := exists_ofText_mixedText
  exact ⟨m, hm, Model.ofText_faithful hm⟩

end FlatDae
