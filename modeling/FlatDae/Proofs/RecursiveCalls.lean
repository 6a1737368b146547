/-
Module: FlatDae.Proofs.RecursiveCalls
Purpose: Recursion among the functions of a model. The moments of an evaluation are followed from call to
  call: at each of them no function is active twice, and an active function calls, by way of others, every
  function that is called there. So a call is refused as recursive only if the functions that can be
  reached from the expression call each other in a circle, and if they do then the expression has no value.
Main exports: FunctionTable.Moment, FunctionTable.Calls, FunctionTable.Reaches, FunctionTable.Circular,
  FunctionTable.Moment.activeFunctions, FunctionTable.Moment.leads, FunctionTable.Moment.exists_recursive,
  FunctionTable.Moment.evaluate_eq_error, FunctionTable.Enters.exists_of_transGen,
  FunctionTable.evaluate_nestedCalls
-/
import FlatDae.Proofs.CallNesting
import FlatDae.Proofs.CallsMade

namespace FlatDae

open FlatDae.Expr (Graph)
open Relation (ReflTransGen TransGen)

namespace FunctionTable

/-- What an expression is evaluated over: the known values, and calls of the functions. -/
abbrev environment (functions : FunctionTable) (table : ParameterTable) : Environment where
  table := table
  call := functions.call []

/-! ### Moments -/

/-- The moments of evaluating `e` over `table`: which functions are active, the innermost first, and what
    is being evaluated over what. A call of a function that is not active leads on to its outputs, one
    after the other as long as they have values. -/
inductive Moment (functions : FunctionTable) (table : ParameterTable) (e : Expr) :
    List String → Environment → Expr → Prop where
  | start : Moment functions table e [] (functions.environment table) e
  | enter {active : List String} {env : Environment} {x : Expr} {name : String} {args : List Float}
      {output : Nat} {f : ModelFunction} {before after : List Expr} {o : Expr}
      (outside : Moment functions table e active env x) (makes : env.Makes x name args output)
      (inactive : name ∉ active) (found : functions[name]? = some f)
      (arity : args.length = f.inputs.length) (outputs : f.outputs = before ++ o :: after)
      (done : ∀ b ∈ before, ∃ value,
        (functions.insideCall (name :: active) f args).evaluate b = .ok value) :
      Moment functions table e (name :: active) (functions.insideCall (name :: active) f args) o

/-! ### Who calls whom -/

/-- The function has an output with a call of `callee` in it. -/
def Calls (functions : FunctionTable) (name callee : String) : Prop :=
  ∃ f, functions[name]? = some f ∧ ∃ o ∈ f.outputs, o.Mentions callee

/-- The function is called in the expression, or by way of functions that are. -/
def Reaches (functions : FunctionTable) (e : Expr) (name : String) : Prop :=
  ∃ first, e.Mentions first ∧ ReflTransGen functions.Calls first name

/-- A function that the expression reaches calls itself, perhaps by way of others. -/
def Circular (functions : FunctionTable) (e : Expr) : Prop :=
  ∃ name, functions.Reaches e name ∧ TransGen functions.Calls name name

/-- The inputs of the functions are symbols of the graph. -/
def InputsOnSymbols (functions : FunctionTable) (g : Graph) : Prop :=
  ∀ (name : String) (f : ModelFunction), functions[name]? = some f →
    ∀ input ∈ f.inputs, input ∈ g ∧ input.isSymbol = true

variable {functions : FunctionTable} {g : Graph} {table : ParameterTable} {e : Expr}
  {active : List String} {env : Environment} {x : Expr}

/-! ### What every moment has -/

/-- What is evaluated is a node of the graph, and calls mean what they mean inside the active ones. -/
theorem Moment.drawn (hfunctions : functions.DrawnFrom g) (he : e ∈ g)
    (h : functions.Moment table e active env x) : x ∈ g ∧ env.call = functions.callInside active := by
  cases h with
  | start => exact ⟨he, rfl⟩
  | enter _ _ _ found _ outputs _ => exact ⟨hfunctions _ _ found x (by simp [outputs]), rfl⟩

theorem Moment.activeFunctions (h : functions.Moment table e active env x) : functions.Active active := by
  induction h with
  | start => exact active_nil
  | enter _ _ inactive found _ _ _ ih => exact ih.cons inactive found

/-- The expression reaches the active functions and what is called, and an active function calls, perhaps
    by way of others, what is called. -/
theorem Moment.leads (hfunctions : functions.DrawnFrom g) (he : e ∈ g)
    (h : functions.Moment table e active env x) {callee : String} (hcallee : x.Mentions callee) :
    functions.Reaches e callee ∧ ∀ name ∈ active, TransGen functions.Calls name callee := by
  induction h generalizing callee with
  | start => exact ⟨⟨callee, hcallee, .refl⟩, fun _ hname => absurd hname List.not_mem_nil⟩
  | @enter _ _ _ name _ _ f _ _ o outside makes _ found _ outputs _ ih =>
      have hcalls : functions.Calls name callee := ⟨f, found, o, by simp [outputs], hcallee⟩
      obtain ⟨⟨first, hfirst, hreach⟩, hactive⟩ :=
        ih (makes.mentions (outside.drawn hfunctions he).1)
      refine ⟨⟨first, hfirst, hreach.tail hcalls⟩, List.forall_mem_cons.2 ⟨.single hcalls, ?_⟩⟩
      exact fun other hother => (hactive other hother).tail hcalls

/-! ### Refused calls -/

/-- If a call is refused as recursive at or after a moment, then there is a moment at which that function
    is active and is called. The induction is on the number of functions that are not active. -/
theorem Moment.exists_recursive (hfunctions : functions.DrawnFrom g) (he : e ∈ g)
    (h : functions.Moment table e active env x) {name : String}
    (hrefused : env.evaluate x = .error (.functionFault name .recursiveCall)) :
    ∃ active' env' x' args output, functions.Moment table e active' env' x' ∧ name ∈ active' ∧
      env'.Makes x' name args output := by
  induction hfree : functions.size - active.length using Nat.strongRecOn generalizing active env x with
  | ind free ih =>
      obtain ⟨hx, hcall⟩ := h.drawn hfunctions he
      obtain ⟨function, args, output, hmakes, hfault⟩ := Environment.exists_makes hx hrefused
      rw [hcall] at hfault
      cases callFails hfault with
      | recursiveCall hactive => exact ⟨active, env, x, args, output, h, hactive, hmakes⟩
      | inside hactive hfound hargs houtputs hbefore ho =>
          have hinside := h.enter hmakes hactive hfound hargs houtputs hbefore
          have hlength := hinside.activeFunctions.length_le
          rw [List.length_cons] at hlength
          exact ih _ (by rw [← hfree, List.length_cons]; omega) hinside ho rfl

/-- What fails at a moment fails the whole evaluation with the same error. -/
theorem Moment.evaluate_eq_error (hfunctions : functions.DrawnFrom g) (he : e ∈ g)
    (h : functions.Moment table e active env x) {error : ModelError}
    (hfailed : env.evaluate x = .error error) :
    (functions.environment table).evaluate e = .error error := by
  induction h with
  | start => exact hfailed
  | enter outside makes inactive found arity outputs done ih =>
      refine ih (makes.evaluate_eq_error ?_)
      rw [(outside.drawn hfunctions he).2]
      exact (CallFails.inside inactive found arity outputs done hfailed).callInside_eq

/-- Without a circle no call is refused as recursive. -/
theorem Moment.not_recursive (hfunctions : functions.DrawnFrom g) (he : e ∈ g)
    (h : functions.Moment table e active env x) (hcircular : ¬ functions.Circular e) {name : String}
    (hname : name ∈ active) {args : List Float} {output : Nat} : ¬ env.Makes x name args output := by
  intro hmakes
  obtain ⟨hreaches, hactive⟩ := h.leads hfunctions he (hmakes.mentions (h.drawn hfunctions he).1)
  exact hcircular ⟨name, hreaches, hactive name hname⟩

/-! ### Calls with values -/

/-- While these functions are active some call of the function has a value. -/
def Enters (functions : FunctionTable) (active : List String) (name : String) : Prop :=
  ∃ args output value, functions.callInside active name args output = .ok value

/-- The arguments of a call are values of symbols. -/
theorem onSymbols_args (hinputs : functions.InputsOnSymbols g) {name : String} {f : ModelFunction}
    (hf : functions[name]? = some f) (args : List Float) :
    (ParameterTable.ofRows (f.inputs.zip args)).OnSymbols g := by
  intro n hn
  obtain ⟨row, hrow, rfl⟩ := List.mem_map.1 hn
  exact hinputs name f hf row.1 (List.of_mem_zip hrow).1

/-- A function that has a value is not active, and the functions that it calls have values inside. -/
theorem Enters.step (hfunctions : functions.DrawnFrom g) (hinputs : functions.InputsOnSymbols g)
    {name : String} (h : functions.Enters active name) :
    name ∉ active ∧ ∀ callee, functions.Calls name callee → functions.Enters (name :: active) callee := by
  obtain ⟨args, output, value, hvalue⟩ := h
  obtain ⟨hactive, f, hf, houtputs⟩ := callInside_eq_ok hvalue
  refine ⟨hactive, ?_⟩
  rintro callee ⟨f', hf', o, ho, hmentions⟩
  obtain rfl : f = f' := Option.some.inj (hf.symm.trans hf')
  obtain ⟨result, hresult⟩ := houtputs o ho
  exact Environment.exists_call_eq_ok (hfunctions name f hf o ho) (onSymbols_args hinputs hf args)
    hresult hmentions

/-- So do the functions that those call in turn, with everything on the way to them active. -/
theorem Enters.exists_of_transGen (hfunctions : functions.DrawnFrom g)
    (hinputs : functions.InputsOnSymbols g) {name last : String} (h : functions.Enters active name)
    (hcalls : TransGen functions.Calls name last) :
    ∃ active', name :: active ⊆ active' ∧ functions.Enters active' last := by
  induction hcalls using TransGen.head_induction_on generalizing active with
  | single hlast => exact ⟨_, List.Subset.refl _, (h.step hfunctions hinputs).2 _ hlast⟩
  | head hfirst _ ih =>
      obtain ⟨active', hsubset, henters⟩ := ih ((h.step hfunctions hinputs).2 _ hfirst)
      exact ⟨active', fun _ hother => hsubset (List.mem_cons_of_mem _ hother), henters⟩

/-- An expression that reaches a circle has no value. -/
theorem not_circular_of_evaluate (hfunctions : functions.DrawnFrom g)
    (hinputs : functions.InputsOnSymbols g) (htable : table.OnSymbols g) (he : e ∈ g) {value : Float}
    (h : (functions.environment table).evaluate e = .ok value) :
    ¬ functions.Circular e := by
  rintro ⟨name, ⟨first, hmentions, hreach⟩, hcircle⟩
  have hfirst : functions.Enters [] first := Environment.exists_call_eq_ok he htable h hmentions
  obtain ⟨active, hname⟩ : ∃ active, functions.Enters active name := by
    obtain rfl | hcalls := Relation.reflTransGen_iff_eq_or_transGen.1 hreach
    · exact ⟨[], hfirst⟩
    · obtain ⟨active, -, hname⟩ := hfirst.exists_of_transGen hfunctions hinputs hcalls
      exact ⟨active, hname⟩
  obtain ⟨active', hsubset, hagain⟩ := hname.exists_of_transGen hfunctions hinputs hcircle
  exact (hagain.step hfunctions hinputs).1 (hsubset List.mem_cons_self)

/-- An evaluation ends, and never has more calls inside each other than there are functions: with room for
    so many calls the evaluator never goes beyond it, and at every moment the active functions are different
    functions of the table, as they are with the function that is called next, unless that is refused. A
    function is reported to be called recursively exactly if there is a moment at which it is active and is
    called; so none ever is if the functions that the expression reaches do not call each other in a circle,
    and if they do then the expression has no value. -/
theorem evaluate_nestedCalls (g : Graph) (functions : FunctionTable) (hfunctions : functions.DrawnFrom g)
    (hinputs : functions.InputsOnSymbols g) (table : ParameterTable) (htable : table.OnSymbols g)
    (e : Expr) (he : e ∈ g) :
    (∃ outcome, (functions.environment table).evaluate? e = some outcome) ∧
    (∀ (beyond : CallSemantics) (room : Nat), functions.size ≤ room →
      ({ table, call := functions.callNested beyond room [] } : Environment).evaluate e =
        (functions.environment table).evaluate e) ∧
    (∀ active env x, functions.Moment table e active env x →
      active.Nodup ∧ (∀ name ∈ active, name ∈ functions) ∧ active.length ≤ functions.size ∧
      ∀ name args output, env.Makes x name args output → name ∈ functions → name ∉ active →
        (name :: active).length ≤ functions.size) ∧
    (∀ name, (functions.environment table).evaluate e = .error (.functionFault name .recursiveCall) ↔
      ∃ active env x args output, functions.Moment table e active env x ∧ name ∈ active ∧
        env.Makes x name args output) ∧
    (¬ functions.Circular e → ∀ name,
      (functions.environment table).evaluate e ≠ .error (.functionFault name .recursiveCall)) ∧
    (functions.Circular e → ∀ value, (functions.environment table).evaluate e ≠ .ok value) := by
  refine ⟨⟨_, Environment.evaluate?_eq he _⟩, ?room, ?moments, ?recursive, ?acyclic, ?circular⟩
  case room =>
    intro beyond room hroom
    rw [callNested_eq beyond active_nil (by simpa using hroom)]
    rfl
  case moments =>
    intro active env x h
    have hactive := h.activeFunctions
    refine ⟨hactive.nodup, fun name hname => ?_, hactive.length_le, ?_⟩
    · obtain ⟨f, hf⟩ := hactive.found name hname
      exact Std.TreeMap.mem_iff_isSome_getElem?.2 (by simp [hf])
    · intro name args output hmakes hname hinactive
      obtain ⟨f, hf⟩ := Option.isSome_iff_exists.1 (Std.TreeMap.mem_iff_isSome_getElem?.1 hname)
      exact (hactive.cons hinactive hf).length_le
  case recursive =>
    intro name
    refine ⟨fun hrefused => Moment.start.exists_recursive hfunctions he hrefused, ?_⟩
    rintro ⟨active, env, x, args, output, h, hname, hmakes⟩
    refine h.evaluate_eq_error hfunctions he (hmakes.evaluate_eq_error ?_)
    rw [(h.drawn hfunctions he).2]
    exact callInside_of_active hname args output
  case acyclic =>
    intro hcircular name hrefused
    obtain ⟨active, env, x, args, output, h, hname, hmakes⟩ :=
      Moment.start.exists_recursive hfunctions he hrefused
    exact h.not_recursive hfunctions he hcircular hname hmakes
  case circular =>
    intro hcircular value hvalue
    exact not_circular_of_evaluate hfunctions hinputs htable he hvalue hcircular

/-! ### Repeated and mutual calls -/

/-- The nodes `p`, `a` and `b`; `a * a`, `sq(b)` and `sq(sq(b))`; `h(a)` and `g(a)`; `quad(p)` and `g(p)`. -/
def callNodes : List Expr :=
  [.symbol 4 "p", .symbol 5 "a", .symbol 6 "b",
    .binary 7 .mul (.symbol 5 "a") (.symbol 5 "a"),
    .call 8 "sq" [.symbol 6 "b"] 0,
    .call 9 "sq" [.call 8 "sq" [.symbol 6 "b"] 0] 0,
    .call 10 "h" [.symbol 5 "a"] 0, .call 11 "g" [.symbol 5 "a"] 0,
    .call 12 "quad" [.symbol 4 "p"] 0, .call 13 "g" [.symbol 4 "p"] 0]

def callGraph : Graph where
  nodes := { n | n ∈ callNodes }
  closed := by
    intro n hn c hc
    simp only [callNodes, Set.mem_ofPred_eq, List.mem_cons, List.not_mem_nil, or_false] at hn ⊢
    rcases hn with rfl | rfl | rfl | rfl | rfl | rfl | rfl | rfl | rfl | rfl <;>
      simp_all [Expr.children]
  unique := fun _ ha _ hb hid =>
    List.inj_on_of_nodup_map (f := Expr.id) (l := callNodes) (by decide) ha hb hid

/-- A function of `a` that hands its argument on. -/
def forwarding (name callee : String) (id : NodeId) : ModelFunction where
  name := name
  inputs := [.symbol 5 "a"]
  outputs := [.call id callee [.symbol 5 "a"] 0]

/-- `sq` squares, `quad` calls it twice, and `g` and `h` call each other. -/
def callFunctions : List ModelFunction :=
  [{ name := "sq"
     inputs := [.symbol 5 "a"]
     outputs := [.binary 7 .mul (.symbol 5 "a") (.symbol 5 "a")] },
    { name := "quad"
      inputs := [.symbol 6 "b"]
      outputs := [.call 9 "sq" [.call 8 "sq" [.symbol 6 "b"] 0] 0] },
    forwarding "g" "h" 10, forwarding "h" "g" 11]

def callTable : FunctionTable :=
  callFunctions.foldr (fun f table => table.insert f.name f) ∅

/-- The functions of the table are the listed ones under their names. -/
theorem of_callTable {name : String} {f : ModelFunction} (h : callTable[name]? = some f) :
    f ∈ callFunctions ∧ f.name = name := by
  rw [callTable] at h
  generalize callFunctions = fs at h
  induction fs with
  | nil => simp at h
  | cons first fs ih =>
      rw [List.foldr_cons, Std.TreeMap.getElem?_insert] at h
      split at h
      · rename_i hname
        obtain rfl := Option.some.inj h
        exact ⟨List.mem_cons_self, Std.LawfulEqCmp.eq_of_compare hname⟩
      · exact ⟨List.mem_cons_of_mem _ (ih h).1, (ih h).2⟩

theorem callTable_drawnFrom : callTable.DrawnFrom callGraph := by
  intro name f hf o ho
  obtain ⟨hmem, -⟩ := of_callTable hf
  simp only [callFunctions, forwarding, List.mem_cons, List.not_mem_nil, or_false] at hmem
  change o ∈ callNodes
  rcases hmem with rfl | rfl | rfl | rfl <;>
    (rw [List.mem_singleton] at ho; subst ho; simp [callNodes])

theorem callTable_inputsOnSymbols : callTable.InputsOnSymbols callGraph := by
  intro name f hf input hinput
  obtain ⟨hmem, -⟩ := of_callTable hf
  simp only [callFunctions, forwarding, List.mem_cons, List.not_mem_nil, or_false] at hmem
  change input ∈ callNodes ∧ _
  rcases hmem with rfl | rfl | rfl | rfl <;>
    (rw [List.mem_singleton] at hinput; subst hinput; simp [callNodes, Expr.isSymbol])

/-- Of these functions `quad` calls `sq`, and `g` and `h` call each other. -/
theorem of_callTable_calls {name callee : String} (h : callTable.Calls name callee) :
    (name = "quad" ∧ callee = "sq") ∨ (name = "g" ∧ callee = "h") ∨ (name = "h" ∧ callee = "g") := by
  obtain ⟨f, hf, o, ho, hmentions⟩ := h
  obtain ⟨hmem, rfl⟩ := of_callTable hf
  simp only [callFunctions, forwarding, List.mem_cons, List.not_mem_nil, or_false] at hmem
  have hsymbol (id : NodeId) (symbol : String) : ¬ (Expr.symbol id symbol).Mentions callee :=
    fun h => Bool.noConfusion h.isSymbol_eq_false
  rcases hmem with rfl | rfl | rfl | rfl <;>
    (rw [List.mem_singleton] at ho
     subst ho
     simp_all [Expr.mentions_iff (e := .call _ _ _ _), Expr.mentions_iff (e := .binary _ _ _ _),
       Expr.children])

/-- From `quad` the calls lead to `sq` and no further. -/
theorem not_circular_quad : ¬ callTable.Circular (.call 12 "quad" [.symbol 4 "p"] 0) := by
  rintro ⟨name, ⟨first, hmentions, hreach⟩, hcircle⟩
  have hfirst : first = "quad" := by
    obtain ⟨id, args, output, heq⟩ | ⟨c, hc, hmentions⟩ := Expr.mentions_iff.1 hmentions
    · exact (Expr.call.inj heq).2.1.symm
    · rw [List.mem_singleton.1 hc] at hmentions
      exact Bool.noConfusion hmentions.isSymbol_eq_false
  have hreached : name = "quad" ∨ name = "sq" := by
    clear hcircle
    induction hreach with
    | refl => exact Or.inl hfirst
    | tail _ hcalls ih =>
        obtain ⟨rfl, rfl⟩ | ⟨rfl, rfl⟩ | ⟨rfl, rfl⟩ := of_callTable_calls hcalls
        · exact Or.inr rfl
        · simp at ih
        · simp at ih
  obtain ⟨callee, hcalls, hrest⟩ := TransGen.head'_iff.1 hcircle
  obtain ⟨rfl, rfl⟩ | ⟨rfl, rfl⟩ | ⟨rfl, rfl⟩ := of_callTable_calls hcalls
  · obtain heq | ⟨next, hnext, -⟩ := hrest.cases_head
    · simp at heq
    · simpa using of_callTable_calls hnext
  · simp at hreached
  · simp at hreached

theorem circular_g : callTable.Circular (.call 13 "g" [.symbol 4 "p"] 0) := by
  have hg : callTable.Calls "g" "h" := ⟨_, rfl, _, List.mem_singleton_self _, _, _, _, .self _⟩
  have hh : callTable.Calls "h" "g" := ⟨_, rfl, _, List.mem_singleton_self _, _, _, _, .self _⟩
  exact ⟨"g", ⟨"g", ⟨_, _, _, .self _⟩, .refl⟩, .head hg (.single hh)⟩

/-- With `p = 2` a call of `g` leads to one of `h`, and that to one of `g`, which is refused. -/
theorem evaluate_g : (callTable.environment (.ofRows [(.symbol 4 "p", 2.0)])).evaluate
    (.call 13 "g" [.symbol 4 "p"] 0) = .error (.functionFault "g" .recursiveCall) := by
  have hevaluate (env : Environment) {e : Expr} (he : e ∈ callNodes) :
      env.evaluate e = env.treeEvaluate e :=
    Environment.evaluate_eq_treeEvaluate (g := callGraph) he env
  have hagain : (callTable.insideCall ["h", "g"] (forwarding "h" "g" 11) [2.0]).evaluate
      (.call 11 "g" [.symbol 5 "a"] 0) = .error (.functionFault "g" .recursiveCall) := by
    rw [hevaluate _ (by simp [callNodes])]
    exact callInside_of_active (by simp) [2.0] 0
  have hh : (callTable.insideCall ["g"] (forwarding "g" "h" 10) [2.0]).evaluate
      (.call 10 "h" [.symbol 5 "a"] 0) = .error (.functionFault "g" .recursiveCall) := by
    rw [hevaluate _ (by simp [callNodes])]
    exact (CallFails.inside (by simp) rfl rfl (List.nil_append _).symm (by simp) hagain).callInside_eq
  rw [hevaluate _ (by simp [callNodes])]
  exact (CallFails.inside List.not_mem_nil rfl rfl (List.nil_append _).symm (by simp) hh).callInside_eq

/-- With `p = 2` a call of `quad` is not refused, although `sq` is called for an argument of `sq`. One of
    `g` has no value, and is refused at a moment at which `g` is called again. -/
theorem evaluate_nestedCalls_quad :
    callTable.DrawnFrom callGraph ∧ callTable.InputsOnSymbols callGraph ∧
    (ParameterTable.ofRows [(.symbol 4 "p", 2.0)]).OnSymbols callGraph ∧
    (.call 12 "quad" [.symbol 4 "p"] 0 ∈ callGraph ∧
      ∀ name, (callTable.environment (.ofRows [(.symbol 4 "p", 2.0)])).evaluate
        (.call 12 "quad" [.symbol 4 "p"] 0) ≠ .error (.functionFault name .recursiveCall)) ∧
    (.call 13 "g" [.symbol 4 "p"] 0 ∈ callGraph ∧
      (∃ active env x args output, callTable.Moment (.ofRows [(.symbol 4 "p", 2.0)])
        (.call 13 "g" [.symbol 4 "p"] 0) active env x ∧ "g" ∈ active ∧ env.Makes x "g" args output) ∧
      ∀ value, (callTable.environment (.ofRows [(.symbol 4 "p", 2.0)])).evaluate
        (.call 13 "g" [.symbol 4 "p"] 0) ≠ .ok value) := by
  have htable : (ParameterTable.ofRows [(.symbol 4 "p", 2.0)]).OnSymbols callGraph := by
    intro n hn
    rw [List.mem_singleton.1 hn]
    exact ⟨List.mem_cons_self, rfl⟩
  have hquad : .call 12 "quad" [.symbol 4 "p"] 0 ∈ callGraph := by
    change _ ∈ callNodes
    simp [callNodes]
  have hg : .call 13 "g" [.symbol 4 "p"] 0 ∈ callGraph := by
    change _ ∈ callNodes
    simp [callNodes]
  obtain ⟨-, -, -, -, hrepeated, -⟩ := evaluate_nestedCalls callGraph callTable callTable_drawnFrom
    callTable_inputsOnSymbols _ htable _ hquad
  obtain ⟨-, -, -, hrecursive, -, hmutual⟩ := evaluate_nestedCalls callGraph callTable callTable_drawnFrom
    callTable_inputsOnSymbols _ htable _ hg
  exact ⟨callTable_drawnFrom, callTable_inputsOnSymbols, htable, ⟨hquad, hrepeated not_circular_quad⟩,
    hg, (hrecursive "g").1 evaluate_g, hmutual circular_g⟩

end FunctionTable

end FlatDae
