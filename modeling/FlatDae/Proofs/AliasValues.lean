/-
Module: FlatDae.Proofs.AliasValues
Purpose: What aliases of constants and parameters are worth. Alias links play no part in a calculation: an
  alias has the value of its own value expression, as every constant and parameter has. So it has the
  value of what it is an alias of, up to sign, only if the two expressions happen to agree; and an alias
  that sets nothing is worth the start value of its domain.
Main exports: Operation.SetsAlias, Runs.answer_evaluate_setAlias, signed, Model.ofText_aliasValues
-/
import FlatDae.Proofs.AliasChains
import FlatDae.Proofs.EvaluationFailures
import FlatDae.Proofs.FailedCalculation

namespace FlatDae

open FlatDae.Expr (Graph)

/-- Whether the operation sets an alias link. -/
def Operation.SetsAlias : Operation → Prop
  | .setAlias _ _ _ => True
  | _ => False

/-- The number with the sign that negated aliases give it. -/
def signed (negated : Bool) (x : Float) : Float := if negated then -x else x

namespace Model

/-! ### Links and values -/

/-- Alias links are nothing that values rest on. -/
theorem KeepsValues.setAlias (m : Model) (v target : VarId) (negated : Bool) :
    KeepsValues m (Operation.run m (.setAlias v target negated)) :=
  .modify m v (fun _ => ⟨rfl, rfl, rfl, rfl⟩) fun _ _ => rfl

theorem Runs.keepsValues_setAlias {m relinked : Model}
    (h : m.Runs (fun _ op => op.SetsAlias) relinked) : KeepsValues m relinked := by
  induction h with
  | start => exact .refl m
  | step op _ _ hsets ih =>
      cases op with
      | setAlias v target negated => exact ih.trans (.setAlias _ v target negated)
      | _ => cases hsets

/-- With any other alias links a calculation finds the same values. -/
theorem Runs.answer_evaluate_setAlias {m relinked : Model}
    (h : m.Runs (fun _ op => op.SetsAlias) relinked) (e : Expr) :
    (evaluate e).answer (calculate.after relinked) = (evaluate e).answer (calculate.after m) := by
  have hkeeps := h.keepsValues_setAlias
  rw [evaluate_answer_calculate_after, evaluate_answer_calculate_after, hkeeps.solve_eq]
  simp only [environment, hkeeps.functions]

/-- After a calculation expressions are evaluated over a table in which each constant or parameter has the
    value of its value expression. -/
theorem answer_evaluate_calculated {g : Graph} {m : Model} (h : m.Sound g)
    (hcalculate : calculate.answer m = .ok ()) : ∃ table : ParameterTable, table.KeyedBySymbols g ∧
      (∀ e, (evaluate e).answer (calculate.after m) = (m.environment table).evaluate e) ∧
      ∀ v ∈ m.registered, (m.store.get v).isTabled = true → ∃ e x, (m.store.get v).value? = some e ∧
        (m.environment table).evaluate e = .ok x ∧
        (m.environment table).evaluate (m.store.get v).symbol = .ok x := by
  cases hrun : calculate.run m with
  | error error m' =>
      rw [Action.answer, hrun] at hcalculate
      cases hcalculate
  | ok a m' =>
      obtain ⟨found, table, hfound, rfl⟩ := evaluates_of_calculate h.apart h.drawn hrun
      refine ⟨table, keyedBySymbols_of_nodes hfound.drawn (by rw [hfound.nodes]), fun e => ?_,
        fun v hv htabled => ?_⟩
      · rw [Action.after, hrun]
        refine (evaluate_answer_of_valid rfl e).trans ?_
        exact congrArg (Environment.evaluate · e)
          (congrFun (recordValues_environment found m.withoutValues) table)
      · obtain ⟨f, hf, hvalue, -, hsymbol, -⟩ := hfound.exists_found hv htabled
        obtain ⟨x, hfirst, hevaluate⟩ := hfound.solves.solved f.1 (List.mem_map_of_mem hf)
        refine ⟨f.1.value, x, hvalue, hevaluate, ?_⟩
        rw [← hsymbol, Environment.evaluate, Environment.evaluate?, environment]
        simp only [hfirst]
        rfl

/-- One whose value expression is a number has the number as its value. -/
theorem answer_evaluate_constant {g : Graph} {m : Model} (h : m.Sound g)
    (hcalculate : calculate.answer m = .ok ()) {v : VarId} (hv : v ∈ m.registered)
    (htabled : (m.store.get v).isTabled = true) {id : NodeId} {c : Float}
    (hvalue : (m.store.get v).value? = some (.constant id c)) :
    (evaluate (m.store.get v).symbol).answer (calculate.after m) = .ok c := by
  obtain ⟨table, hkeyed, hanswer, hvalues⟩ := answer_evaluate_calculated h hcalculate
  obtain ⟨e, x, he, hx, hsymbol⟩ := hvalues v hv htabled
  obtain rfl := Option.some.inj (hvalue.symm.trans he)
  rw [environment, Environment.evaluate_constant (h.drawn.values v hv _ hvalue) hkeyed] at hx
  rw [hanswer, hsymbol, ← hx]

end Model

namespace Source

/-! ### Aliases that set nothing -/

/-- What nothing sets is as it is by default. -/
theorem SetFrom.of_lastValue?_eq_none {means : String → Expr → Prop} {defaults : String → Option Attribute}
    {settings : List AttributeSetting} {attributes : Attributes}
    (h : SetFrom means defaults settings attributes) {name : String}
    (hnone : lastValue? settings name = none) : attributes[name]? = defaults name := by
  have hname := h name
  rwa [hnone] at hname

/-- Neither the component nor the declaration of its type, if the text has one, sets a binding or a start
    value. -/
structure Component.LeftBlank (text : Model) (c : Component) : Prop where
  binding : lastValue? c.allSettings Variable.bindingAttribute = none
  start : lastValue? c.allSettings Variable.startAttribute = none
  typeStart : ∀ d ∈ text.types, d.name = c.typeName → lastValue? d.attributes Variable.startAttribute = none

/-- The start value of a numeric domain is zero. -/
theorem builtin_start {domain : Domain} (h : domain.isNumeric = true) :
    (VariableType.builtin domain).attribute? Variable.startAttribute = some (.expr .zero) := by
  cases domain with
  | real => rfl
  | integer => rfl
  | boolean => rfl
  | string => cases h

/-- What gives the value of a numeric variable that sets nothing is zero, if anything is. -/
theorem Model.TranslatesTo.value?_of_leftBlank {text : Source.Model} {m : FlatDae.Model}
    (h : text.TranslatesTo m) {c : Component} {v : VarId} (hregistered : c.RegisteredAs m v)
    (hblank : c.LeftBlank text) (hnumeric : (m.store.get v).domain.isNumeric = true) {e : Expr}
    (he : (m.store.get v).value? = some e) : e = .zero := by
  obtain ⟨type, hfound, hdeclared, hdomain⟩ := hregistered.type
  rw [← hdomain] at hnumeric
  have hbinding : (m.store.get v).binding? = none := by
    rw [Variable.binding?, hregistered.attributes.of_lastValue?_eq_none hblank.binding]
    rfl
  have htype : type.attribute? Variable.startAttribute = some (.expr .zero) := by
    rcases h.onlyTypes _ _ hfound with ⟨d, hd, hname⟩ | ⟨domain, hname, rfl⟩
    · obtain ⟨type', hfound', htranslates⟩ := h.types d hd
      rw [hname] at hfound'
      obtain rfl := Option.some.inj (hfound.symm.trans hfound')
      rw [VariableType.attribute?,
        htranslates.attributes.of_lastValue?_eq_none (hblank.typeStart d hd hname)]
      exact builtin_start hnumeric
    · exact builtin_start hnumeric
  have hstart : (m.store.get v).start? = some .zero := by
    rw [Variable.start?, Variable.attribute?, hregistered.attributes.of_lastValue?_eq_none hblank.start,
      hdeclared]
    simp [htype, Attribute.expr?]
  unfold Variable.value? at he
  rw [hbinding, hstart] at he
  split at he
  · cases he
  · exact (Option.some.inj he).symm

end Source

namespace Model

/-- Alias links play no part in what constants and parameters are worth. After a calculation that succeeds,
    every expression has the value that it would have with any other links. A constant or parameter has the
    value of its own value expression; so an alias has the value of what it is an alias of, up to the sign
    of the alias clauses in between, if and only if the value expressions of the two have. And what is
    declared blank is worth zero, whatever it is an alias of. -/
theorem ofText_aliasValues {s : String} {m : Model} (h : Model.ofText s = .ok m)
    (hcalculate : calculate.answer m = .ok ()) :
    (∀ relinked, m.Runs (fun _ op => op.SetsAlias) relinked → ∀ e,
      (evaluate e).answer (calculate.after relinked) = (evaluate e).answer (calculate.after m)) ∧
    (∀ v ∈ m.registered, (m.store.get v).isTabled = true → ∃ e x, (m.store.get v).value? = some e ∧
      (evaluate e).answer (calculate.after m) = .ok x ∧
      (evaluate (m.store.get v).symbol).answer (calculate.after m) = .ok x) ∧
    ∃ text, Source.parse s = .ok text ∧
      (∀ a ∈ m.registered, ∀ p ∈ m.registered, (m.store.get a).isTabled = true →
        (m.store.get p).isTabled = true → ∀ negated,
        text.Aliases (m.store.get a).name (m.store.get p).name negated →
        ∀ ea ep, (m.store.get a).value? = some ea → (m.store.get p).value? = some ep →
          ((evaluate (m.store.get a).symbol).answer (calculate.after m) =
              ((evaluate (m.store.get p).symbol).answer (calculate.after m)).map (signed negated) ↔
            (evaluate ea).answer (calculate.after m) =
              ((evaluate ep).answer (calculate.after m)).map (signed negated))) ∧
      ∀ c ∈ text.components, c.LeftBlank text → ∀ v ∈ m.registered, (m.store.get v).name = c.name →
        (m.store.get v).isTabled = true →
        (evaluate (m.store.get v).symbol).answer (calculate.after m) = .ok 0.0 := by
  obtain ⟨text, hparse, htext, htranslates, hassembled⟩ := Model.ofText_eq_ok h
  obtain ⟨g, hg⟩ := hassembled.nodes
  have hsound := htranslates.sound htext hassembled hg
  obtain ⟨table, -, hanswer, hvalues⟩ := answer_evaluate_calculated hsound hcalculate
  have hown {v : VarId} (hv : v ∈ m.registered) (htabled : (m.store.get v).isTabled = true) {e : Expr}
      (he : (m.store.get v).value? = some e) :
      (evaluate (m.store.get v).symbol).answer (calculate.after m) =
        (evaluate e).answer (calculate.after m) := by
    obtain ⟨e', x, he', hx, hsymbol⟩ := hvalues v hv htabled
    obtain rfl := Option.some.inj (he.symm.trans he')
    rw [hanswer, hanswer, hx, hsymbol]
  refine ⟨fun relinked hruns => hruns.answer_evaluate_setAlias, ?_, text, hparse, ?_, ?_⟩
  · simpa only [hanswer] using hvalues
  · intro a ha p hp htabled htabled' negated _ ea ep hea hep
    rw [hown ha htabled hea, hown hp htabled' hep]
  · intro c hc hblank v hv hname htabled
    obtain ⟨e, x, he, -⟩ := hvalues v hv htabled
    have hnumeric : (m.store.get v).domain.isNumeric = true := (Bool.and_eq_true_iff.1 htabled).2
    have hregistered := htranslates.registeredAs_of_name htext hc hv hname
    obtain rfl := htranslates.value?_of_leftBlank hregistered hblank hnumeric he
    exact answer_evaluate_constant hsound hcalculate hv htabled he

/-! ### Aliases of a parameter -/

/-- A parameter that starts at 1, an alias of it and a negated alias of the alias. -/
def aliasParameterText : String :=
  "model A parameter Real p(start = 1); parameter Real a alias p; parameter Real b alias -a; end A;"

set_option maxRecDepth 100000 in
/-- The parameters with the numbers that define them. -/
theorem aliasParameterText_values : (Model.ofText aliasParameterText).toOption.map (fun m =>
      m.registered.toList.map fun v =>
        (v, (m.defined? v).bind (·.value.value?), (m.store.get v).aliasOf)) =
    some [(⟨0⟩, some 1.0, none), (⟨1⟩, some 0.0, some ⟨⟨0⟩, false⟩),
      (⟨2⟩, some 0.0, some ⟨⟨1⟩, true⟩)] := by
  decide +kernel

/-- A variable that is defined by a number is a constant or parameter with that value. -/
theorem value?_of_defined? {m : Model} {v : VarId} {c : Float}
    (h : (m.defined? v).bind (·.value.value?) = some c) :
    (m.store.get v).isTabled = true ∧ ∃ id, (m.store.get v).value? = some (.constant id c) := by
  obtain ⟨d, hd, hc⟩ := Option.bind_eq_some_iff.1 h
  obtain ⟨htabled, hvalue, -⟩ := Variable.defined?_eq_some hd
  refine ⟨htabled, ?_⟩
  rw [hvalue]
  cases hexpr : d.value with
  | constant id c' =>
      rw [hexpr] at hc
      exact ⟨id, congrArg (fun c => some (Expr.constant id c)) (Option.some.inj hc)⟩
  | _ =>
      rw [hexpr] at hc
      cases hc

/-- The model has three variables, each defined by a number, and can be calculated. -/
theorem exists_ofText_aliasParameterText : ∃ m, Model.ofText aliasParameterText = .ok m ∧
    calculate.answer m = .ok () ∧ m.registered.toList = [⟨0⟩, ⟨1⟩, ⟨2⟩] ∧
    (m.store.get ⟨0⟩).aliasOf = none ∧ (m.store.get ⟨1⟩).aliasOf = some ⟨⟨0⟩, false⟩ ∧
    (m.store.get ⟨2⟩).aliasOf = some ⟨⟨1⟩, true⟩ ∧
    (evaluate (m.store.get ⟨0⟩).symbol).answer (calculate.after m) = .ok 1.0 ∧
    (evaluate (m.store.get ⟨1⟩).symbol).answer (calculate.after m) = .ok 0.0 ∧
    (evaluate (m.store.get ⟨2⟩).symbol).answer (calculate.after m) = .ok 0.0 := by
  have hvalues := aliasParameterText_values
  cases hm : Model.ofText aliasParameterText with
  | error failure =>
      rw [hm] at hvalues
      cases hvalues
  | ok m =>
      rw [hm] at hvalues
      replace hvalues := Option.some.inj hvalues
      dsimp only at hvalues
      have hregistered : m.registered.toList = [⟨0⟩, ⟨1⟩, ⟨2⟩] := by
        simpa [List.map_map, Function.comp_def] using congrArg (List.map Prod.fst) hvalues
      rw [hregistered] at hvalues
      simp only [List.map_cons, List.map_nil, List.cons.injEq, Prod.mk.injEq, and_true, true_and]
        at hvalues
      obtain ⟨⟨hp, hpAlias⟩, ⟨ha, haAlias⟩, hb, hbAlias⟩ := hvalues
      obtain ⟨text, -, htext, htranslates, hassembled⟩ := Model.ofText_eq_ok hm
      obtain ⟨g, hg⟩ := hassembled.nodes
      have hsound := htranslates.sound htext hassembled hg
      have hdefined (v : VarId) (hv : v ∈ m.registered) :
          ∃ c, (m.defined? v).bind (·.value.value?) = some c := by
        rw [← Array.mem_toList_iff, hregistered] at hv
        simp only [List.mem_cons, List.not_mem_nil, or_false] at hv
        rcases hv with rfl | rfl | rfl
        · exact ⟨_, hp⟩
        · exact ⟨_, ha⟩
        · exact ⟨_, hb⟩
      have hcalculate : calculate.answer m = .ok () := by
        refine OfConstants.calculate_answer (fun v hv _ => ?_) hsound.apart hsound.drawn
        obtain ⟨c, hc⟩ := hdefined v hv
        obtain ⟨-, id, hvalue⟩ := value?_of_defined? hc
        exact ⟨id, c, hvalue⟩
      have hanswer (v : VarId) (hv : v ∈ [⟨0⟩, ⟨1⟩, ⟨2⟩]) {c : Float}
          (hc : (m.defined? v).bind (·.value.value?) = some c) :
          (evaluate (m.store.get v).symbol).answer (calculate.after m) = .ok c := by
        obtain ⟨htabled, id, hvalue⟩ := value?_of_defined? hc
        exact answer_evaluate_constant hsound hcalculate (Array.mem_toList_iff.1 (hregistered ▸ hv))
          htabled hvalue
      exact ⟨m, rfl, hcalculate, hregistered, hpAlias, haAlias, hbAlias, hanswer _ (by simp) hp,
        hanswer _ (by simp) ha, hanswer _ (by simp) hb⟩

/-- Made an alias of the parameter itself instead, the second alias is worth zero as before. -/
theorem ofText_aliasValues_relinked : ∃ m, Model.ofText aliasParameterText = .ok m ∧
    calculate.answer m = .ok () ∧
    (evaluate (m.store.get ⟨2⟩).symbol).answer
      (calculate.after (Operation.run m (.setAlias ⟨2⟩ ⟨0⟩ false))) = .ok 0.0 := by
  obtain ⟨m, hm, hcalculate, -, -, -, -, -, -, hb⟩ := exists_ofText_aliasParameterText
  refine ⟨m, hm, hcalculate, ?_⟩
  have hrelinked : m.Runs (fun _ op => op.SetsAlias) (Operation.run m (.setAlias ⟨2⟩ ⟨0⟩ false)) :=
    .step _ .start trivial trivial
  rw [(ofText_aliasValues hm hcalculate).1 _ hrelinked, hb]

/-- The alias and the alias of the alias are worth zero, although the parameter is worth 1. -/
theorem ofText_aliasValues_unequal : ∃ m, Model.ofText aliasParameterText = .ok m ∧
    calculate.answer m = .ok () ∧ ∃ text, Source.parse aliasParameterText = .ok text ∧
    ∃ p ∈ m.registered, ∃ a ∈ m.registered, ∃ b ∈ m.registered, (m.store.get p).aliasOf = none ∧
      text.Aliases (m.store.get a).name (m.store.get p).name false ∧
      text.Aliases (m.store.get b).name (m.store.get p).name true ∧
      (evaluate (m.store.get p).symbol).answer (calculate.after m) = .ok 1.0 ∧
      (evaluate (m.store.get a).symbol).answer (calculate.after m) ≠ .ok (signed false 1.0) ∧
      (evaluate (m.store.get b).symbol).answer (calculate.after m) ≠ .ok (signed true 1.0) := by
  obtain ⟨m, hm, hcalculate, hregistered, hpAlias, haAlias, hbAlias, hp, ha, hb⟩ :=
    exists_ofText_aliasParameterText
  obtain ⟨text, hparse, -, htranslates, -⟩ := Model.ofText_eq_ok hm
  have hmem (v : VarId) (hv : v ∈ [⟨0⟩, ⟨1⟩, ⟨2⟩]) : v ∈ m.registered :=
    Array.mem_toList_iff.1 (hregistered ▸ hv)
  have hfirst := htranslates.aliases_of_aliasChain (.direct haAlias) (hmem ⟨1⟩ (by simp))
  have hsecond := htranslates.aliases_of_aliasChain (.through hbAlias (.direct haAlias))
    (hmem ⟨2⟩ (by simp))
  refine ⟨m, hm, hcalculate, text, hparse, ⟨0⟩, hmem _ (by simp), ⟨1⟩, hmem _ (by simp), ⟨2⟩,
    hmem _ (by simp), hpAlias, hfirst.2, hsecond.2, hp, ?_, ?_⟩
  · rw [ha, Ne, Except.ok.injEq]
    decide
  · rw [hb, Ne, Except.ok.injEq]
    decide

end Model

end FlatDae
