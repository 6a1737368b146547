/-
Module: FlatDae.Proofs.EvaluationFailures
Purpose: How the evaluation of an expression of a text's model can fail. What is checked when the model
  is built never goes wrong afterwards: no call, however deep inside function bodies, is one of an unknown
  function, with a wrong number of arguments or for an output that there is not. What remains are values
  that the text leaves open, definitions in a circle, derivatives, and functions that call themselves.
Main exports: Model.EvaluationFailure, Model.Sound, Model.evaluate_failure_of_current,
  Source.Model.TranslatesTo.sound, Model.ofText_evaluate_failure
-/
import FlatDae.Proofs.CallFailures
import FlatDae.Proofs.CurrentValues
import FlatDae.Proofs.ModelFidelity
import FlatDae.Proofs.ParameterValues
import FlatDae.Proofs.SourceEvaluation
import Mathlib.Data.Option.Basic

namespace FlatDae

open FlatDae.Expr (Graph)
open Elaboration (timeName)

namespace Model

/-! ### Reasons -/

/-- What is evaluated to find the value of `e`: the values of all numeric constants and parameters and
    then `e` itself. -/
inductive Consults (m : Model) (e : Expr) : Expr → Prop where
  | self : Consults m e e
  | value {v : VarId} {x : Expr} (hv : v ∈ m.registered) (htabled : (m.store.get v).isTabled = true)
      (hx : (m.store.get v).value? = some x) : Consults m e x

/-- How the evaluation of `e` can fail. -/
inductive EvaluationFailure (m : Model) (e : Expr) : ModelError → Prop where
  /-- The values of numeric constants and parameters refer to each other in a circle. -/
  | cyclicDependency {names : List String}
      (hnames : ∀ name ∈ names, ∃ v ∈ m.registered, (m.store.get v).name = name ∧
        (m.store.get v).isTabled = true) :
      EvaluationFailure m e (.cyclicDependency names)
  | missingValue {v : VarId} (hv : v ∈ m.registered) (htabled : (m.store.get v).isTabled = true)
      (hnone : (m.store.get v).value? = none) :
      EvaluationFailure m e (.missingValue (m.store.get v).name)
  /-- The time variable is mentioned, or a variable that is no numeric constant or parameter. -/
  | unresolved {x : Expr} (hx : m.Consults e x) {id : NodeId} {name : String}
      (hin : Expr.Within (.symbol id name) x)
      (hname : name = timeName ∨
        ∃ v ∈ m.registered, (m.store.get v).name = name ∧ (m.store.get v).isTabled = false) :
      EvaluationFailure m e (.unresolved name x.print)
  | derivative {x : Expr} (hx : m.Consults e x) {id : NodeId} {child : Expr}
      (hin : Expr.Within (.der id child) x) (known : Expr → Option Float) :
      EvaluationFailure m e (.nonNumeric ((Expr.der id child).printWith known))
  /-- A function that is called contains a derivative or calls itself. -/
  | call {error : ModelError} (h : m.functions.CallFailure error) : EvaluationFailure m e error

/-! ### Failures over a table -/

/-- The expression is made of nodes of the graph, of calls that fit and of symbols that names stand
    for. -/
structure Ready (m : Model) (g : Graph) (x : Expr) : Prop where
  mem : x ∈ g
  fits : ∀ n, Expr.Within n x → m.functions.Fits n
  means : ∀ id name, Expr.Within (.symbol id name) x → m.Means name (.symbol id name)

/-- The values and the functions of the model can be evaluated. -/
structure Sound (m : Model) (g : Graph) : Prop where
  drawn : m.DrawnFrom g
  apart : m.RegisteredApart
  functions : m.functions.Closed g
  values : ∀ v ∈ m.registered, ∀ x, (m.store.get v).value? = some x → m.Ready g x

variable {m : Model} {g : Graph} {e : Expr} {error : ModelError}

/-- A numeric constant or parameter is among the definitions. -/
theorem exists_definition {ds : Array Definition} (hds : m.definitions = .ok ds) {v : VarId}
    (hv : v ∈ m.registered) (htabled : (m.store.get v).isTabled = true) :
    ∃ d ∈ ds.toList, d.symbol = (m.store.get v).symbol := by
  obtain ⟨hvalues, hlist⟩ := definitions_eq_ok_iff.1 hds
  obtain ⟨value, hvalue⟩ := Option.isSome_iff_exists.1 (hvalues v hv htabled)
  rw [hlist]
  have hdefined : m.defined? v = some
      { target := v, name := (m.store.get v).name, symbol := (m.store.get v).symbol, value
        dependent := (m.store.get v).isDependentParameter } := by
    rw [defined?, Variable.defined?, if_pos htabled, hvalue, Option.map_some]
  exact ⟨_, List.mem_filterMap.2 ⟨v, Array.mem_toList_iff.2 hv, hdefined⟩, rfl⟩

/-- Over a table of what an expression refers to, it fails for one of the reasons. -/
theorem evaluationFailure_of_table (hclosed : m.functions.Closed g) {ds : Array Definition}
    (hds : m.definitions = .ok ds) {table : ParameterTable} (hdistinct : table.Distinct) {x : Expr}
    (hx : m.Consults e x) (hready : m.Ready g x)
    (hnodes : ∀ d ∈ ds.toList, d.symbol ∈ x.symbols → d.symbol ∈ table.nodes)
    (h : (m.environment table).evaluate x = .error error) : m.EvaluationFailure e error := by
  rcases Environment.evaluate_failure hclosed hdistinct hready.mem hready.fits h with
    ⟨id, name, hin, hunknown, rfl⟩ | ⟨id, child, hin, rfl⟩ | hcall
  · refine .unresolved hx hin ?_
    rcases hready.means id name hin with ⟨htime, -⟩ | ⟨v, hv, hname, hsymbol⟩
    · exact Or.inl htime
    · refine Or.inr ⟨v, hv, hname, Bool.eq_false_iff.2 fun htabled => ?_⟩
      obtain ⟨d, hd, hdefined⟩ := exists_definition hds hv htabled
      rw [hsymbol] at hdefined
      have hmem := hnodes d hd (hdefined ▸ (Expr.mem_symbols hready.mem).2 ⟨rfl, hin⟩)
      obtain ⟨row, hrow, hkey⟩ := List.mem_map.1 hmem
      have hknown := ParameterTable.first?_of_mem hdistinct hrow
      rw [hkey, hdefined, hunknown] at hknown
      cases hknown
  · exact .derivative hx hin _
  · exact .call hcall

/-! ### Failures of definitions -/

/-- Definitions that are evaluated one after the other fail at a first one. -/
theorem exists_of_foldlM_eq_error {order : List Definition} {start : ParameterTable}
    (h : order.foldlM m.extendTable start = .error error) :
    ∃ before d rest table, order = before ++ d :: rest ∧ before.foldlM m.extendTable start = .ok table ∧
      (m.environment table).evaluate d.value = .error error := by
  induction order generalizing start with
  | nil => cases h
  | cons d order ih =>
      rw [List.foldlM_cons] at h
      cases hvalue : (m.environment start).evaluate d.value with
      | error error' =>
          simp only [extendTable, hvalue] at h
          obtain rfl := Except.error.inj h
          exact ⟨[], d, order, start, rfl, rfl, hvalue⟩
      | ok value =>
          have hextend : m.extendTable start d = .ok (start.push d.symbol value) := by
            rw [extendTable, hvalue]
            rfl
          rw [hextend] at h
          obtain ⟨before, d', rest, table, rfl, hbefore, hfailed⟩ := ih h
          refine ⟨d :: before, d', rest, table, rfl, ?_, hfailed⟩
          rw [List.foldlM_cons, hextend]
          exact hbefore

/-- Every definition is one of a numeric constant or parameter. -/
theorem exists_of_mem_definitions {ds : Array Definition} (hds : m.definitions = .ok ds) {d : Definition}
    (hd : d ∈ ds.toList) : ∃ v ∈ m.registered, (m.store.get v).isTabled = true ∧
      (m.store.get v).value? = some d.value ∧ d.name = (m.store.get v).name := by
  rw [(definitions_eq_ok_iff.1 hds).2] at hd
  obtain ⟨v, hv, hdefined⟩ := List.mem_filterMap.1 hd
  obtain ⟨htabled, hvalue, -, -, -⟩ := Variable.defined?_eq_some hdefined
  refine ⟨v, Array.mem_toList_iff.1 hv, htabled, hvalue, ?_⟩
  rw [defined?, Variable.defined?, if_pos htabled, hvalue] at hdefined
  exact (congrArg Definition.name (Option.some.inj hdefined)).symm

/-- If the values of the model are not found, it is for one of the reasons. -/
theorem solve_failure (hsound : m.Sound g) (h : m.solve = .error error) : m.EvaluationFailure e error := by
  unfold solve at h
  cases hds : m.definitions with
  | error error' =>
      rw [hds] at h
      obtain rfl := Except.error.inj h
      obtain ⟨v, hv, htabled, hnone, rfl⟩ := definitions_eq_error hds
      exact .missingValue hv htabled hnone
  | ok ds =>
      have hdrawn := hsound.drawn.definitions hsound.apart hds
      have hspec := definitionOrder_spec hdrawn
      cases horder : definitionOrder ds with
      | error error' =>
          rw [horder] at hspec
          obtain ⟨cycle, hcycle, rfl⟩ := hspec
          simp only [hds, horder, bind, Except.bind] at h
          obtain rfl := Except.error.inj h
          refine .cyclicDependency fun name hname => ?_
          obtain ⟨i, hi, rfl⟩ := List.mem_map.1 hname
          have hlt : i < ds.toList.length := by simpa [references] using hcycle.lt_size i hi
          obtain ⟨v, hv, htabled, -, hv'⟩ := exists_of_mem_definitions hds (List.getElem_mem hlt)
          rw [getD_eq_of_getElem? (List.getElem?_eq_getElem hlt)]
          exact ⟨v, hv, hv'.symm, htabled⟩
      | ok order =>
          rw [horder] at hspec
          obtain ⟨hperm, hordered⟩ := hspec
          simp only [hds, horder, bind, Except.bind] at h
          obtain ⟨before, d, rest, table, rfl, hbefore, hfailed⟩ := exists_of_foldlM_eq_error h
          have hbeforeDrawn : Definition.DrawnFrom g before :=
            (hdrawn.of_perm hperm).sublist (List.sublist_append_left _ _)
          obtain ⟨hnodes, -⟩ := solves_of_foldlM hbeforeDrawn hordered.of_append hbefore
          have hd : d ∈ ds.toList :=
            hperm.mem_iff.1 (List.mem_append_right _ List.mem_cons_self)
          obtain ⟨v, hv, htabled, hvalue, -⟩ := exists_of_mem_definitions hds hd
          refine evaluationFailure_of_table hsound.functions hds
            (keyedBySymbols_of_nodes hbeforeDrawn (by rw [hnodes])).distinct (.value hv htabled hvalue)
            (hsound.values v hv _ hvalue) (fun d' hd' hmention => ?_) hfailed
          -- what the value mentions is defined before
          rw [hnodes]
          refine List.mem_map.2 ⟨d', ?_, rfl⟩
          exact hordered before d ⟨rest, by simp⟩ d' (hperm.mem_iff.2 hd') hmention

/-- Values that are found are found along an order of the definitions. -/
theorem exists_order_of_solve {table : ParameterTable} (h : m.solve = .ok table) :
    ∃ ds order, m.definitions = .ok ds ∧ definitionOrder ds = .ok order ∧
      order.foldlM m.extendTable {} = .ok table := by
  unfold solve at h
  cases hds : m.definitions with
  | error error =>
      rw [hds] at h
      cases h
  | ok ds =>
      simp only [hds, bind, Except.bind] at h
      cases horder : definitionOrder ds with
      | error error =>
          rw [horder] at h
          cases h
      | ok order =>
          rw [horder] at h
          exact ⟨ds, order, rfl, horder, h⟩

/-- Where the values are current, an evaluation fails for one of the reasons only. -/
theorem evaluate_failure_of_current (hsound : m.Sound g) (hcurrent : m.Current) (hready : m.Ready g e)
    (h : (evaluate e).answer m = .error error) : m.EvaluationFailure e error := by
  rw [evaluate_answer hcurrent] at h
  cases hsolve : m.solve with
  | error error' =>
      rw [hsolve] at h
      obtain rfl := Except.error.inj h
      exact solve_failure hsound hsolve
  | ok table =>
      rw [hsolve] at h
      obtain ⟨ds, order, hds, horder, hfold⟩ := exists_order_of_solve hsolve
      have hdrawn := hsound.drawn.definitions hsound.apart hds
      have hspec := definitionOrder_spec hdrawn
      rw [horder] at hspec
      obtain ⟨hperm, hordered⟩ := hspec
      have horderDrawn := hdrawn.of_perm hperm
      obtain ⟨hnodes, -⟩ := solves_of_foldlM horderDrawn hordered hfold
      refine evaluationFailure_of_table hsound.functions hds
        (keyedBySymbols_of_nodes horderDrawn (by rw [hnodes])).distinct .self hready
        (fun d hd _ => ?_) h
      rw [hnodes]
      exact List.mem_map.2 ⟨d, hperm.mem_iff.2 hd, rfl⟩

/-! ### Evaluations one after the other -/

end Model

/-- Whether the operation calculates or evaluates, and so changes nothing that a text says. -/
def Operation.IsEvaluation : Operation → Prop
  | .calculate => True
  | .evaluate _ => True
  | _ => False

namespace Model

variable {m m' : Model} {g : Graph} {e : Expr} {error : ModelError}

/-- What an evaluation answers is the same after any number of calculations and evaluations. -/
theorem Runs.answer_evaluate_eq (hcurrent : m.Current)
    (h : m.Runs (fun _ op => op.IsEvaluation) m') (e : Expr) :
    (evaluate e).answer m' = (evaluate e).answer m := by
  have hsame : m'.Current ∧ m'.solve = m.solve ∧ m'.functions = m.functions := by
    induction h with
    | start => exact ⟨hcurrent, rfl, rfl⟩
    | @step between op _ _ hevaluation ih =>
        have hcalculated : (calculate.after between).Current ∧
            (calculate.after between).solve = m.solve ∧
            (calculate.after between).functions = m.functions :=
          ⟨current_calculate_after _, (solve_calculate_after _).trans ih.2.1,
            (calculate_after_functions _).trans ih.2.2⟩
        cases op with
        | calculate => exact hcalculated
        | evaluate e =>
            change ((evaluate e).after between).Current ∧ ((evaluate e).after between).solve = m.solve ∧
              ((evaluate e).after between).functions = m.functions
            rw [evaluate_after]
            split
            · exact ih
            · exact hcalculated
        | _ => cases hevaluation
  obtain ⟨hcurrent', hsolve, hfunctions⟩ := hsame
  rw [evaluate_answer hcurrent, evaluate_answer hcurrent', hsolve]
  simp only [environment, hfunctions]

/-- The value of a registered variable is one of the expressions of the model, if the types of variables
    are registered. -/
theorem holds_of_value? {v : VarId} (hv : v ∈ m.registered)
    (htype : ∀ type, (m.store.get v).declaredType = some type → ∃ name, m.types.get? name = some type)
    {x : Expr} (hx : (m.store.get v).value? = some x) : m.Holds x := by
  have hexpr {stored : Option Attribute} (h : stored.bind Attribute.expr? = some x) :
      stored = some (Attribute.expr x) := by
    obtain ⟨value, rfl, hvalue⟩ := Option.bind_eq_some_iff.1 h
    cases value with
    | expr y => rw [Option.some.inj hvalue]
    | text s => cases hvalue
  have hbinding (h : (m.store.get v).binding? = some x) : m.Holds x := .own hv (hexpr h)
  have hstart (h : (m.store.get v).start? = some x) : m.Holds x := by
    rcases (Option.orElse_eq_some _ _ _).1 (hexpr h) with hown | ⟨-, hdefault⟩
    · exact .own hv hown
    · obtain ⟨type, htypeOf, hattribute⟩ := Option.bind_eq_some_iff.1 hdefault
      obtain ⟨name, hregistered⟩ := htype type htypeOf
      exact .ofType hregistered hattribute
  unfold Variable.value? at hx
  split at hx
  · exact hbinding hx
  · rcases (Option.orElse_eq_some _ _ _).1 hx with h | ⟨-, h⟩
    · exact hbinding h
    · exact hstart h

end Model

/-! ### Models of texts -/

namespace Source.Model.TranslatesTo

variable {text : Source.Model} {m : FlatDae.Model} (h : text.TranslatesTo m) (htext : text.WellFormed)
include h

/-- A node that says what a well formed part of an expression says can be asked for its value. -/
theorem fits_of_hasPart {means : String → Expr → Prop} {known : String → Prop} {e : Expression}
    {n : Expr} (hmeans : ∀ name symbol, means name symbol → ∃ id, symbol = .symbol id name)
    (hwf : e.WellFormed text.Declares known) (hpart : Expression.TranslatesTo.HasPart means e n) :
    m.functions.Fits n := by
  obtain ⟨part, htranslates, hplus, hpartWf⟩ := hpart
  cases htranslates with
  | name _ hname =>
      obtain ⟨id, rfl⟩ := hmeans _ _ hname
      trivial
  | plus start _ => exact absurd rfl (hplus start _)
  | declared start id hbuiltin hlength _ =>
      have hfits := (Expression.wellFormed_call_iff.1 (hpartWf _ _ hwf)).2
      obtain ⟨outputs, ⟨d, hd, rfl, hinputs, rfl⟩, houtput⟩ :=
        (Expression.callFits_declared_iff hbuiltin).1 hfits
      obtain ⟨f, hf, hfunction⟩ := h.functions d hd
      exact ⟨f, hf, by rw [← hlength, ← hinputs, hfunction.inputs.length_eq],
        hfunction.outputs.length_eq ▸ houtput⟩
  | _ => trivial

include htext

/-- The functions of the model are made of calls that fit. -/
theorem closed {g : Graph} (hg : m.NodesIn g) : m.functions.Closed g := by
  have hdeclared (name : String) (f : ModelFunction) (hf : m.functions[name]? = some f) :
      ∃ d ∈ text.functions, d.TranslatesTo f := by
    obtain ⟨d, hd, rfl⟩ := h.onlyFunctions name f hf
    obtain ⟨f', hf', htranslates⟩ := h.functions d hd
    obtain rfl := Option.some.inj (hf.symm.trans hf')
    exact ⟨d, hd, htranslates⟩
  refine ⟨hg.outputs, ?_, ?_, ?_⟩
  · intro name f hf
    obtain ⟨d, hd, htranslates⟩ := hdeclared name f hf
    have hprints : (f.inputs.map Expr.print).Nodup :=
      htranslates.print_inputs ▸ (htext.functions d hd).params
    exact List.Nodup.map_on (fun x hx y hy hid =>
      Graph.eq_of_id_eq (hg.inputs name f hf x hx) (hg.inputs name f hf y hy) hid)
      (List.Nodup.of_map _ hprints)
  · intro name f hf output houtput n hn
    obtain ⟨d, hd, htranslates⟩ := hdeclared name f hf
    obtain ⟨e, he, houtput⟩ := exists_left_of_forall₂ htranslates.outputs houtput
    have hmeans := (htranslates.symbolic (hg.inputs name f hf)).symbol
    exact h.fits_of_hasPart hmeans ((htext.functions d hd).outputs e he)
      (houtput.hasPart_of_within hmeans hn)
  · intro name f hf output houtput n hn hsymbol
    obtain ⟨d, hd, htranslates⟩ := hdeclared name f hf
    obtain ⟨e, -, houtput⟩ := exists_left_of_forall₂ htranslates.outputs houtput
    cases n with
    | symbol id name' =>
        have hmeans := houtput.means_of_within (htranslates.symbolic (hg.inputs name f hf)).symbol hn
        exact (htranslates.means_iff.1 hmeans).1
    | _ => cases hsymbol

/-- What stands in the model can be evaluated. -/
theorem ready_of_holds (hm : m.Assembled) {g : Graph} (hg : m.NodesIn g) {x : Expr} (hx : m.Holds x) :
    m.Ready g x where
  mem := by
    cases hx with
    | lhs heq =>
        rcases heq with heq | heq
        · exact (hg.initialEquations _ (Array.mem_toList_iff.2 heq)).1
        · exact (hg.daeEquations _ (Array.mem_toList_iff.2 heq)).1
    | rhs heq =>
        rcases heq with heq | heq
        · exact (hg.initialEquations _ (Array.mem_toList_iff.2 heq)).2
        · exact (hg.daeEquations _ (Array.mem_toList_iff.2 heq)).2
    | own hv hname => exact hg.attributes _ hv _ _ hname
    | ofType htype hname => exact hg.types _ _ htype _ _ hname
  fits := by
    intro n hn
    rcases h.of_holds htext hx with ⟨e, hwf, htranslates⟩ | hshared
    · have hmeans : ∀ name symbol, m.Means name symbol → ∃ id, symbol = .symbol id name :=
        fun _ _ hname => h.symbol_of_means hname
      exact h.fits_of_hasPart hmeans hwf (htranslates.hasPart_of_within hmeans hn)
    · rcases Graph.mem_of_within hshared hn with rfl | rfl | rfl | rfl <;> trivial
  means := fun id name hin => (h.wellNamed htext hm).held x hx id name hin

/-- The values and the functions of the model can be evaluated. -/
theorem sound (hm : m.Assembled) {g : Graph} (hg : m.NodesIn g) : m.Sound g := by
  have hvalue {v : VarId} (hv : v ∈ m.registered) {x : Expr} (hx : (m.store.get v).value? = some x) :
      m.Holds x := by
    refine FlatDae.Model.holds_of_value? hv (fun type htype => ?_) hx
    obtain ⟨c, -, hregistered⟩ := exists_left_of_forall₂ h.components (Array.mem_toList_iff.2 hv)
    obtain ⟨type', hfound, hdeclared, -⟩ := hregistered.type
    obtain rfl := Option.some.inj (htype.symm.trans hdeclared)
    exact ⟨c.typeName, hfound⟩
  have hready {v : VarId} (hv : v ∈ m.registered) {x : Expr} (hx : (m.store.get v).value? = some x) :
      m.Ready g x := h.ready_of_holds htext hm hg (hvalue hv hx)
  refine ⟨⟨fun v hv => ?_, fun v hv x hx => (hready hv hx).mem⟩, hm.registeredApart,
    h.closed htext hg, fun v hv x hx => hready hv hx⟩
  have hmeans : m.Means (m.store.get v).name (m.store.get v).symbol := Or.inr ⟨v, hv, rfl, rfl⟩
  obtain ⟨id, hsymbol⟩ := h.symbol_of_means hmeans
  exact ⟨hg.meant _ _ hmeans, by rw [hsymbol]; rfl⟩

end Source.Model.TranslatesTo

/-- Of an expression in the model of a text, and of all function bodies, every call is one that fits; and
    at any time, whatever was evaluated before, the evaluation of the expression can fail only because
    of definitions in a circle, a missing value, a variable that is no numeric constant or parameter, a
    derivative, or a function that calls itself. -/
theorem Model.ofText_evaluate_failure {s : String} {m m' : Model} (h : Model.ofText s = .ok m)
    (hruns : m.Runs (fun _ op => op.IsEvaluation) m') {e : Expr} (he : m.Holds e) :
    (∀ n, Expr.Within n e → m.functions.Fits n) ∧
    (∀ (name : String) (f : ModelFunction), m.functions[name]? = some f → ∀ output ∈ f.outputs,
      ∀ n, Expr.Within n output → m.functions.Fits n) ∧
    ∀ error, (evaluate e).answer m' = .error error → m.EvaluationFailure e error := by
  obtain ⟨text, -, htext, htranslates, hassembled⟩ := Model.ofText_eq_ok h
  obtain ⟨g, hg⟩ := hassembled.nodes
  have hready := htranslates.ready_of_holds htext hassembled hg he
  have hcurrent := current_of_invalid hassembled.outdated
  refine ⟨hready.fits, (htranslates.closed htext hg).fits, fun error herror => ?_⟩
  rw [hruns.answer_evaluate_eq hcurrent] at herror
  exact evaluate_failure_of_current (htranslates.sound htext hassembled hg) hcurrent hready herror

/-! ### A derivative on the left -/

/-- Without definitions a derivative fails by itself. -/
theorem Model.evaluate_answer_der {m : Model} (hcurrent : m.Current) (hnone : m.definitions = .ok #[])
    {g : Graph} {id : NodeId} {child : Expr} (hmem : Expr.der id child ∈ g) :
    (evaluate (.der id child)).answer m = .error (.nonNumeric (Expr.der id child).print) := by
  have horder : definitionOrder #[] = .ok [] := by
    simp [definitionOrder, dependencyOrder, references, Search.runAll]
  have hsolve : m.solve = .ok {} := by
    rw [solve, hnone]
    simp only [bind, Except.bind, horder]
    rfl
  rw [evaluate_answer hcurrent, hsolve, Except.bind, Environment.evaluate, Environment.evaluate?_eq hmem]
  rfl

set_option maxRecDepth 100000 in
/-- The model of the text defines no values, and the first of its equations begins with a derivative. -/
theorem mixedText_derivative : (match Model.ofText mixedText with
    | .ok m => m.definitions.toOption.any Array.isEmpty &&
        (m.daeEquations[0]?.bind (·.lhs.derArgument?)).isSome
    | .error _ => false) = true := by decide +kernel

/-- The derivative on the left of an equation has no value. -/
theorem Model.ofText_evaluate_failure_mixedText :
    ∃ m e error, Model.ofText mixedText = .ok m ∧ m.Holds e ∧ (evaluate e).answer m = .error error ∧
      (∀ n, Expr.Within n e → m.functions.Fits n) ∧ m.EvaluationFailure e error := by
  have hderivative := mixedText_derivative
  obtain ⟨m, hm⟩ := exists_ofText_mixedText
  simp only [hm, Bool.and_eq_true] at hderivative
  obtain ⟨hempty, hlhs⟩ := hderivative
  have hnone : m.definitions = .ok #[] := by
    cases hds : m.definitions with
    | error error =>
        rw [hds] at hempty
        cases hempty
    | ok ds =>
        rw [hds] at hempty
        rw [Array.isEmpty_iff.1 hempty]
  obtain ⟨child, hchild⟩ := Option.isSome_iff_exists.1 hlhs
  obtain ⟨eq, heq, hder⟩ := Option.bind_eq_some_iff.1 hchild
  have hholds : m.Holds eq.lhs := .lhs (Or.inr (Array.mem_of_getElem? heq))
  obtain ⟨text, -, htext, htranslates, hassembled⟩ := Model.ofText_eq_ok hm
  obtain ⟨g, hg⟩ := hassembled.nodes
  have hmem := (htranslates.ready_of_holds htext hassembled hg hholds).mem
  cases hside : eq.lhs with
  | der id child' =>
      rw [hside] at hholds hmem
      have hfails := evaluate_answer_der (current_of_invalid hassembled.outdated) hnone hmem
      obtain ⟨hfits, -, hfailure⟩ := ofText_evaluate_failure hm .start hholds
      exact ⟨m, _, _, hm, hholds, hfails, hfits, hfailure _ hfails⟩
  | _ =>
      rw [hside] at hder
      cases hder

end FlatDae
