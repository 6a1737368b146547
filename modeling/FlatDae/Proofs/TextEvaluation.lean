/-
Module: FlatDae.Proofs.TextEvaluation
Purpose: The expressions of a model are worth what the text says. Each side of an equation, each
  attribute and binding and each output of a function stands in the text with its tokens and has, over any
  numbers for the names it can use, the value of the expression as it is written, or fails for the same
  reason.
Main exports: Source.Model.SameValue, Source.Model.Evaluates, Source.Model.TranslatesTo.implements,
  Source.Model.TranslatesTo.evaluates, Model.ofText_evaluates
-/
import FlatDae.Proofs.ModelFidelity
import FlatDae.Proofs.SourceEvaluation
import FlatDae.Proofs.TextPlaces

namespace FlatDae

open FlatDae.Expr (Graph)
open Elaboration (timeName)

namespace Source

/-- What calls give in a text. -/
def Model.call (text : Model) : CallValues := callDeclared text.functions []

/-- Whatever numbers the names have, the graph has the value of the expression as it is written or fails
    for the same reason. -/
def Model.SameValue (text : Model) (m : FlatDae.Model) (means : String → Expr → Prop) (e : Expression)
    (x : Expr) : Prop :=
  ∀ (table : ParameterTable) (names : String → Option Float), table.Assigns means names →
    ((m.environment table).evaluate x).mapError ModelError.fault = e.value names text.call

/-- Every expression of the text has its value in the model. -/
structure Model.Evaluates (text : Model) (m : FlatDae.Model) : Prop where
  /-- Numbers can be assigned to the names of the model in any way. -/
  tables : ∀ names : String → Option Float, ∃ table : ParameterTable, table.Assigns m.Means names
  initialEquations : List.Forall₂ (fun eq built =>
    text.SameValue m m.Means eq.lhs built.lhs ∧ text.SameValue m m.Means eq.rhs built.rhs)
    text.initialEquations m.initialEquations.toList
  equations : List.Forall₂ (fun eq built =>
    text.SameValue m m.Means eq.lhs built.lhs ∧ text.SameValue m m.Means eq.rhs built.rhs)
    text.equations m.daeEquations.toList
  /-- The last value that a component gives to an attribute, or its binding. -/
  attributes : List.Forall₂ (fun c v => ∀ name e,
    lastValue? c.allSettings name = some (.expression e) →
      ∃ x, (m.store.get v).attributes[name]? = some (Attribute.expr x) ∧ text.SameValue m m.Means e x)
    text.components m.registered.toList
  types : ∀ d ∈ text.types, ∃ type, m.types.get? d.name = some type ∧ ∀ name e,
    lastValue? d.attributes name = some (.expression e) →
      ∃ x, type.attributes[name]? = some (Attribute.expr x) ∧ text.SameValue m m.Means e x
  functions : ∀ d ∈ text.functions, ∃ f, m.functions[d.name]? = some f ∧
    (∀ names : String → Option Float, ∃ table : ParameterTable, table.Assigns (d.Means f) names) ∧
    List.Forall₂ (text.SameValue m (d.Means f)) d.outputs f.outputs
  /-- The same holds of any other node that says what an expression over these names says, such as one
      for an attribute that is set again. -/
  others : ∀ g, m.NodesIn g → ∀ e x, x ∈ g → e.TranslatesTo m.Means x → text.SameValue m m.Means e x

/-! ### Assignments -/

/-- Numbers can be assigned to different names in any way. -/
theorem exists_assigns {g : Graph} {means : String → Expr → Prop} (hmeans : Symbolic g means)
    {symbols : List Expr} (hsymbols : ∀ symbol, symbol ∈ symbols ↔ ∃ name, means name symbol)
    (hnames : (symbols.map Expr.print).Nodup) (names : String → Option Float) :
    ∃ table : ParameterTable, table.Assigns means names := by
  let known : List Expr := symbols.filter fun symbol => (names symbol.print).isSome
  let table : ParameterTable := .ofRows (known.map fun symbol => (symbol, (names symbol.print).getD 0))
  have hmem {symbol : Expr} (hsymbol : symbol ∈ symbols) : symbol ∈ g := by
    obtain ⟨name, hname⟩ := (hsymbols symbol).1 hsymbol
    exact hmeans.mem name symbol hname
  have hnodes : table.nodes = known := by
    simp [table, ParameterTable.nodes, ParameterTable.ofRows, Function.comp_def]
  have hdistinct : table.Distinct := by
    have hids : (symbols.map Expr.id).Nodup :=
      List.Nodup.map_on (fun x hx y hy hid => Graph.eq_of_id_eq (hmem hx) (hmem hy) hid)
        (List.Nodup.of_map _ hnames)
    rw [ParameterTable.Distinct, hnodes]
    exact (List.filter_sublist.map Expr.id).nodup hids
  refine ⟨table, hdistinct, ?_, ?_⟩
  · intro key hkey
    rw [hnodes] at hkey
    exact (hsymbols key).1 (List.mem_of_mem_filter hkey)
  · intro name symbol hname
    obtain ⟨id, rfl⟩ := hmeans.symbol name symbol hname
    have hsymbol := (hsymbols _).2 ⟨name, hname⟩
    cases hvalue : names name with
    | some value =>
        have hkept : Expr.symbol id name ∈ known :=
          List.mem_filter.2 ⟨hsymbol, by rw [Expr.print_symbol, hvalue]; rfl⟩
        apply ParameterTable.first?_of_mem hdistinct
        refine List.mem_map.2 ⟨_, hkept, ?_⟩
        rw [Expr.print_symbol, hvalue]
        rfl
    | none =>
        cases hfirst : table.first? (.symbol id name) with
        | none => rfl
        | some value =>
            obtain ⟨n, hrow, hid⟩ := ParameterTable.exists_row_of_first? hfirst
            have hkept : n ∈ known := hnodes ▸ List.mem_map.2 ⟨_, hrow, rfl⟩
            obtain ⟨hn, hsome⟩ := List.mem_filter.1 hkept
            rw [Graph.eq_of_id_eq (hmem hn) (hmem hsymbol) hid, Expr.print_symbol, hvalue] at hsome
            cases hsome

/-! ### Texts and their models -/

namespace Model.TranslatesTo

variable {text : Source.Model} {m : FlatDae.Model} (h : text.TranslatesTo m) (htext : text.WellFormed)
include h htext

/-- The functions of the model are those that the text declares. -/
theorem implements {g : Graph} (hg : m.NodesIn g) (active : List String) :
    Implements text.functions g active m.functions where
  missing := by
    intro name _ hnone
    cases hf : m.functions[name]? with
    | none => rfl
    | some f =>
        obtain ⟨d, hd, hname⟩ := h.onlyFunctions name f hf
        exact absurd hname (by simpa using List.find?_eq_none.1 hnone d hd)
  found := by
    intro name _ d hfound
    have hd := List.mem_of_find?_eq_some hfound
    have hname : d.name = name := by simpa using List.find?_some hfound
    obtain ⟨f, hf, htranslates⟩ := h.functions d hd
    rw [hname] at hf
    exact ⟨f, hf, htranslates, (htext.functions d hd).params, hg.inputs name f hf, hg.outputs name f hf⟩

/-- Calls in the model are those of the text. -/
theorem call_eq {g : Graph} (hg : m.NodesIn g) (function : String) (args : List Float) (output : Nat) :
    (m.functions.call [] function args output).mapError ModelError.fault =
      text.call function args output := by
  rw [FunctionTable.call_eq_callWith_treeEvaluate hg.outputs]
  exact callWith_eq_callDeclared (h.implements htext hg []) function args output

/-- A node that says what an expression says has its value. -/
theorem sameValue {means : String → Expr → Prop} {g : Graph} (hg : m.NodesIn g)
    (hmeans : Symbolic g means) {e : Expression} {x : Expr} (hx : x ∈ g) (he : e.TranslatesTo means x) :
    text.SameValue m means e x := by
  intro table names htable
  rw [Environment.evaluate_eq_treeEvaluate hx]
  exact treeEvaluate_eq_value hmeans htable (h.call_eq htext hg) hx he

omit htext in
/-- The names of the model mean symbols. -/
theorem symbolic {g : Graph} (hg : m.NodesIn g) : Symbolic g m.Means :=
  ⟨fun _ _ hmeans => h.symbol_of_means hmeans, hg.meant⟩

/-- The time variable and the variables are what the names of the model mean. -/
theorem exists_symbols : ∃ symbols : List Expr,
    (∀ symbol, symbol ∈ symbols ↔ ∃ name, m.Means name symbol) ∧ (symbols.map Expr.print).Nodup := by
  obtain ⟨id, htime⟩ := h.time
  refine ⟨.symbol id timeName :: m.registered.toList.map fun v => (m.store.get v).symbol, ?_, ?_⟩
  · intro symbol
    rw [List.mem_cons, List.mem_map]
    constructor
    · rintro (rfl | ⟨v, hv, rfl⟩)
      · exact ⟨timeName, Or.inl ⟨rfl, htime⟩⟩
      · exact ⟨_, Or.inr ⟨v, Array.mem_toList_iff.1 hv, rfl, rfl⟩⟩
    · rintro ⟨name, ⟨-, hsymbol⟩ | ⟨v, hv, -, rfl⟩⟩
      · exact Or.inl (Option.some.inj (hsymbol.symm.trans htime))
      · exact Or.inr ⟨v, Array.mem_toList_iff.2 hv, rfl⟩
  · have hprints : (m.registered.toList.map fun v => (m.store.get v).symbol).map Expr.print =
        text.components.map (·.name) := by
      rw [← h.names_eq, List.map_map]
      exact List.map_congr_left fun v _ => (m.store.get v).name_eq.symm
    rw [List.map_cons, Expr.print_symbol, hprints, List.nodup_cons]
    refine ⟨fun hmem => ?_, htext.componentNames⟩
    obtain ⟨c, hc, hname⟩ := List.mem_map.1 hmem
    exact htext.timeFree ⟨c, hc, hname⟩

/-- Every expression of the text has its value in the model. -/
theorem evaluates (hm : m.Assembled) : text.Evaluates m := by
  obtain ⟨g, hg⟩ := hm.nodes
  have hmeans := h.symbolic hg
  have hside {means : String → Expr → Prop} (hmeans : Symbolic g means) {e : Expression} {x : Expr}
      (he : e.TranslatesTo means x) (hx : x ∈ g) : text.SameValue m means e x :=
    h.sameValue htext hg hmeans hx he
  have hsides {eq : Equation} {built : FlatDae.Equation} (heq : eq.TranslatesTo m.Means built)
      (hin : built.lhs ∈ g ∧ built.rhs ∈ g) :
      text.SameValue m m.Means eq.lhs built.lhs ∧ text.SameValue m m.Means eq.rhs built.rhs :=
    ⟨hside hmeans heq.lhs hin.1, hside hmeans heq.rhs hin.2⟩
  have hset {settings : List AttributeSetting} {attributes : Attributes}
      {defaults : String → Option Attribute} (hfrom : SetFrom m.Means defaults settings attributes)
      (hdrawn : Attributes.DrawnFrom g attributes) (name : String) (e : Expression)
      (hlast : lastValue? settings name = some (.expression e)) :
      ∃ x, attributes[name]? = some (Attribute.expr x) ∧ text.SameValue m m.Means e x := by
    have hname := hfrom name
    rw [hlast] at hname
    obtain ⟨_, hstored, hvalue⟩ := hname
    cases hvalue with
    | expression he => exact ⟨_, hstored, hside hmeans he (hdrawn name _ hstored)⟩
  obtain ⟨symbols, hsymbols, hnames⟩ := h.exists_symbols htext
  constructor
  · exact exists_assigns hmeans hsymbols hnames
  · exact forall₂_imp_mem h.initialEquations fun eq _ built hbuilt heq =>
      hsides heq (hg.initialEquations built hbuilt)
  · exact forall₂_imp_mem h.equations fun eq _ built hbuilt heq =>
      hsides heq (hg.daeEquations built hbuilt)
  · exact forall₂_imp_mem h.components fun c _ v hv hregistered =>
      hset hregistered.attributes (hg.attributes v (Array.mem_toList_iff.1 hv))
  · intro d hd
    obtain ⟨type, htype, htranslates⟩ := h.types d hd
    exact ⟨type, htype, hset (htranslates.attributes.mono fun _ _ => False.elim)
      (hg.types d.name type htype)⟩
  · intro d hd
    obtain ⟨f, hf, htranslates⟩ := h.functions d hd
    have hinputs := hg.inputs d.name f hf
    refine ⟨f, hf, exists_assigns (htranslates.symbolic hinputs) (fun symbol => ?_)
      (htranslates.print_inputs ▸ (htext.functions d hd).params), ?_⟩
    · constructor
      · exact fun hsymbol => ⟨_, htranslates.means_iff.2 ⟨hsymbol, rfl⟩⟩
      · rintro ⟨name, hname⟩
        exact (htranslates.means_iff.1 hname).1
    · exact forall₂_imp_mem htranslates.outputs fun e _ x hx he =>
        hside (htranslates.symbolic hinputs) he (hg.outputs d.name f hf x hx)
  · intro g' hg' e x hx he
    exact h.sameValue htext hg' (h.symbolic hg') hx he

end Model.TranslatesTo

end Source

/-- Every expression of a text that has a model stands in the text, its operators with their spelling, and
    has the value in the model that it has as it is written. -/
theorem Model.ofText_evaluates {s : String} {m : Model} (h : Model.ofText s = .ok m) :
    ∃ text, Source.parse s = .ok text ∧ (∀ e ∈ text.expressions, e.StandsIn s) ∧ text.Evaluates m := by
  obtain ⟨text, hparse, htext, htranslates, hassembled⟩ := Model.ofText_eq_ok h
  exact ⟨text, hparse, fun _ => Source.Expression.standsIn_of_mem hparse,
    htranslates.evaluates htext hassembled⟩

set_option maxRecDepth 100000 in
/-- With 3 for `x`, the right side `f(x)` of the first equation is worth 9 as it is written. -/
theorem mixedText_value : (match Source.parse mixedText with
    | .ok text => text.equations[0]?.map (·.rhs.value (fun _ => some 3.0) text.call)
    | .error _ => none) = some (.ok 9.0) := by decide +kernel

/-- So is what the side has become in the model. -/
theorem Model.ofText_evaluates_mixedText :
    ∃ m text, Model.ofText mixedText = .ok m ∧ Source.parse mixedText = .ok text ∧ text.Evaluates m ∧
      ∃ eq built table, text.equations[0]? = some eq ∧ m.daeEquations[0]? = some built ∧
        table.Assigns m.Means (fun _ => some 3.0) ∧
        eq.rhs.value (fun _ => some 3.0) text.call = .ok 9.0 ∧
        (m.environment table).evaluate built.rhs = .ok 9.0 := by
  obtain ⟨m, hm⟩ := exists_ofText_mixedText
  obtain ⟨text, hparse, -, hevaluates⟩ := Model.ofText_evaluates hm
  have hvalue := mixedText_value
  rw [hparse] at hvalue
  obtain ⟨eq, heq, hvalue⟩ := Option.map_eq_some_iff.1 hvalue
  obtain ⟨table, htable⟩ := hevaluates.tables fun _ => some 3.0
  obtain ⟨hlt, rfl⟩ := List.getElem?_eq_some_iff.1 heq
  have hlt' := hevaluates.equations.length_eq ▸ hlt
  let built := m.daeEquations.toList.get ⟨0, hlt'⟩
  have hbuilt : m.daeEquations[0]? = some built :=
    Array.getElem?_toList.symm.trans (List.getElem?_eq_getElem hlt')
  have hsame := ((hevaluates.equations.get hlt hlt').2 table _ htable).trans hvalue
  refine ⟨m, text, hm, hparse, hevaluates, _, built, table, heq, hbuilt, htable, hvalue, ?_⟩
  change ((m.environment table).evaluate built.rhs).mapError ModelError.fault = .ok 9.0 at hsame
  cases hanswer : (m.environment table).evaluate built.rhs with
  | ok value =>
      rw [hanswer] at hsame
      exact congrArg Except.ok (Except.ok.inj hsame)
  | error error =>
      rw [hanswer] at hsame
      cases hsame

end FlatDae
