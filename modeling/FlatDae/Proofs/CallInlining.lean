/-
Module: FlatDae.Proofs.CallInlining
Purpose: A call and the body of the function in its place. If a call has a value then so has the called
  output with the arguments put in for the inputs, evaluated where the call stands: the values that the
  inputs are bound to inside the call are those that the arguments have outside, nothing else is known
  inside, and a function that can be entered inside the call can be entered outside it.
Main exports: Binds, treeValue_inlined, FunctionTable.callInside_mono, FunctionTable.InputsDistinct,
  FunctionTable.evaluate_inlined
-/
import FlatDae.Proofs.RecursiveCalls

namespace FlatDae

open FlatDae.Expr (Alike Graph Replaced Replacements)

/-! ### Substituted trees -/

/-- The nodes that are replaced are the known ones, and what replaces them has their values. -/
def Binds (r : Replacements) (known : Expr → Option Float) (hasValue : Expr → Float → Prop) : Prop :=
  ∀ e : Expr, match r[e.id]? with
    | none => known e = none
    | some t => ∃ value, hasValue t value ∧ known e = some value

section Trees

variable {r : Replacements} {known known' : Expr → Option Float} {call call' : CallSemantics}
  {whole whole' : Expr}

/-- Nodes of one kind make the same value of the values of their children, where calls that have values
    keep them. -/
theorem Environment.combine_alike {env env' : Environment} (hcall : ∀ function args output value,
      env.call function args output = .ok value → env'.call function args output = .ok value)
    {e t : Expr} (halike : Alike e t) {values : List Float} {value : Float}
    (h : env.combine e values = .ok value) : env'.combine t values = .ok value := by
  cases halike with
  | constant => exact h
  | symbol | der => cases h
  | unary | vertcat =>
      match values, h with
      | [_], h => exact h
  | binary =>
      match values, h with
      | [_, _], h => exact h
  | call => exact hcall _ _ _ _ h

/-- A node with a value that is not known is no symbol, and neither is one of its kind. -/
theorem isSymbol_eq_false_of_alike {e t : Expr} (halike : Alike e t)
    (hobstacle : knownObstacle? known whole e = none) : t.isSymbol = false := by
  cases halike with
  | symbol => cases hobstacle
  | _ => rfl

/-- A tree that has a value where its known nodes are bound keeps it when these are replaced. In what it
    has become the nodes that were not there before must not be known. -/
theorem treeValue_inlined (hcall : ∀ function args output value, call function args output = .ok value →
      call' function args output = .ok value)
    (hbinds : Binds r known fun t value => treeValue known' call' whole' t = .ok value) (e : Expr)
    {t : Expr} (h : Replaced r e t)
    (hnew : ∀ n, Expr.Within n t → n.isSymbol = false → known' n = none) {value : Float}
    (hvalue : treeValue known call whole e = .ok value) :
    treeValue known' call' whole' t = .ok value := by
  induction e using Expr.children_induction generalizing t value with
  | step e ih =>
      have he := hbinds e
      cases h with
      | target hreplaced =>
          rw [hreplaced] at he
          obtain ⟨bound, ht, hbound⟩ := he
          rw [treeValue_of_known hbound] at hvalue
          rw [← Except.ok.inj hvalue]
          exact ht
      | rebuilt hunreplaced halike hlength hchildren =>
          rw [hunreplaced] at he
          cases hobstacle : knownObstacle? known whole e with
          | some error =>
              rw [treeValue_of_obstacle he hobstacle] at hvalue
              cases hvalue
          | none =>
              have hunknown : known' t = none :=
                hnew t (.self t) (isSymbol_eq_false_of_alike halike hobstacle)
              have hobstacle' : knownObstacle? known' whole' t = none :=
                knownObstacle?_eq_none halike hlength hobstacle
              obtain ⟨values, hvalues, hcombine⟩ := (treeValue_eq_ok_iff he hobstacle).1 hvalue
              have hpairs : List.Forall₂ (Replaced r) e.children t.children :=
                List.forall₂_iff_zip.2 ⟨hlength.symm, fun {a b} hab => hchildren (a, b) hab⟩
              rw [treeValue_eq_ok_iff hunknown hobstacle']
              refine ⟨values, ?_, Environment.combine_alike hcall halike hcombine⟩
              refine forall₂_of_left hpairs hvalues fun c hc d hd x hreplaced hx => ?_
              exact ih c hc hreplaced (fun n hn => hnew n (.deeper hd hn)) hx

end Trees

/-! ### Fewer active functions -/

/-- An expression keeps its value if calls that have values keep them. -/
theorem Environment.evaluate_mono {g : Graph} {e : Expr} (he : e ∈ g) {table : ParameterTable}
    {call call' : CallSemantics} (hcall : ∀ function args output value,
      call function args output = .ok value → call' function args output = .ok value) {value : Float}
    (h : ({ table, call } : Environment).evaluate e = .ok value) :
    ({ table, call := call' } : Environment).evaluate e = .ok value := by
  rw [evaluate_eq_treeEvaluate he, treeEvaluate] at h ⊢
  cases hfirst : table.first? e with
  | some known =>
      simp only [hfirst] at h ⊢
      exact h
  | none =>
      simp only [hfirst] at h ⊢
      exact treeValue_mono hcall h

namespace FunctionTable

variable {functions : FunctionTable} {g : Graph} {active active' : List String}

/-- A call keeps its value when fewer functions are active. The induction is on the number of functions
    that are not. -/
theorem callInside_mono (hfunctions : functions.DrawnFrom g) (hactive : functions.Active active)
    (hsubset : active' ⊆ active) {name : String} {args : List Float} {output : Nat} {value : Float}
    (h : functions.callInside active name args output = .ok value) :
    functions.callInside active' name args output = .ok value := by
  induction hfree : functions.size - active.length using Nat.strongRecOn generalizing active active' name
      args output value with
  | ind free ih =>
      obtain ⟨hinactive, f, results, hfound, harity, hresults, hselected⟩ := callInside_eq_ok_iff.1 h
      have hinside := hactive.cons hinactive hfound
      have hlength := hinside.length_le
      rw [List.length_cons] at hlength
      have hcalls (function : String) (args : List Float) (output : Nat) (value : Float)
          (hvalue : functions.callInside (name :: active) function args output = .ok value) :
          functions.callInside (name :: active') function args output = .ok value :=
        ih (functions.size - (name :: active).length) (by rw [List.length_cons]; omega) hinside
          (List.cons_subset_cons name hsubset) hvalue rfl
      rw [callInside_eq_ok_iff]
      refine ⟨fun hname => hinactive (hsubset hname), f, results, hfound, harity, ?_, hselected⟩
      refine forall₂_imp_mem hresults fun o ho result _ hresult => ?_
      exact Environment.evaluate_mono (hfunctions name f hfound o ho) hcalls hresult

/-! ### Inlining -/

/-- No input is listed twice. -/
def InputsDistinct (functions : FunctionTable) : Prop :=
  ∀ (name : String) (f : ModelFunction), functions[name]? = some f → (f.inputs.map Expr.id).Nodup

/-- Putting arguments in for inputs binds what a table of their values binds. -/
theorem binds_args {inputs args : List Expr} {values : List Float} {hasValue : Expr → Float → Prop}
    (hvalues : List.Forall₂ hasValue args values) (hlength : values.length = inputs.length)
    {r : Replacements} (hr : Replacements.ofLists? inputs args = some r) :
    Binds r (ParameterTable.ofRows (inputs.zip values)).last? hasValue := by
  intro e
  rw [Expr.ofLists?_getElem? hr, ParameterTable.last?_eq_find?]
  have hrows : List.Forall₂ (fun (row : Expr × Float) (p : Expr × Expr) =>
      p.1 = row.1 ∧ hasValue p.2 row.2) (inputs.zip values) (inputs.zip args) := by
    clear hr
    induction hvalues generalizing inputs with
    | nil =>
        simp only [List.zip_nil_right]
        exact .nil
    | cons hfirst hrest ih =>
        cases inputs with
        | nil => cases hlength
        | cons input inputs => exact .cons ⟨rfl, hfirst⟩ (ih (Nat.succ.inj hlength))
  exact find?_standing (fun value t => hasValue t value) e.id (List.rel_reverse hrows)

/-- If a call has a value then the output that it selects, with the arguments put in for the inputs, has
    the same value over the table that the call is evaluated over. -/
theorem evaluate_inlined (g : Graph) (functions : FunctionTable) (hfunctions : functions.DrawnFrom g)
    (hinputs : functions.InputsDistinct) (table : ParameterTable) (htable : table.KeyedBySymbols g)
    (id : NodeId) (name : String) (args : List Expr) (output : Nat) (hcall : .call id name args output ∈ g)
    (value : Float)
    (hvalue : (functions.environment table).evaluate (.call id name args output) = .ok value) :
    ∃ f body r, functions[name]? = some f ∧ f.outputs[output]? = some body ∧
      Replacements.ofLists? f.inputs args = some r ∧
      ∀ supply : Supply, g.Below supply → ∃ inlined supply',
        body.substitute? r supply = some (inlined, supply') ∧
        (functions.environment table).evaluate inlined = .ok value := by
  rw [Environment.evaluate_eq_treeEvaluate hcall, Environment.treeEvaluate_of_distinct htable.distinct,
    treeValue_eq_ok_iff (htable.first?_eq_none hcall rfl) rfl] at hvalue
  obtain ⟨values, hvalues, hselects⟩ := hvalue
  have hinside : functions.callInside [] name values output = .ok value := hselects
  obtain ⟨-, f, results, hfound, harity, hresults, hselected⟩ := callInside_eq_ok_iff.1 hinside
  obtain ⟨hbounded, -⟩ := List.getElem?_eq_some_iff.1 hselected
  have houtput : output < f.outputs.length := hresults.length_eq ▸ hbounded
  have hargs : f.inputs.length = args.length := harity.symm.trans hvalues.length_eq.symm
  obtain ⟨r, hr⟩ : ∃ r, Replacements.ofLists? f.inputs args = some r := by
    rw [Replacements.ofLists?, if_pos (by simpa using hargs)]
    exact ⟨_, rfl⟩
  refine ⟨f, f.outputs[output], r, hfound, List.getElem?_eq_getElem houtput, hr, fun supply hbelow => ?_⟩
  have hbody : f.outputs[output] ∈ g := hfunctions name f hfound _ (List.getElem_mem houtput)
  obtain ⟨inlined, supply', s, hsubstitute, hgrown, hinlined, hreplaced⟩ :=
    Expr.substitute?_spec hbody (fun n hn => hn)
      (fun n _ t ht => Graph.mem_children hcall (Expr.mem_targets hr ht)) hbelow
  refine ⟨inlined, supply', hsubstitute, ?_⟩
  -- inside the call the output has the value that is selected
  have hdistinct : (functions.insideCall [name] f values).table.Distinct := by
    rw [ParameterTable.Distinct, insideCall, nodes_args harity]
    exact hinputs name f hfound
  have hinside := hresults.get houtput hbounded
  rw [List.getElem?_eq_getElem hbounded, Option.some.injEq] at hselected
  simp only [List.get_eq_getElem, hselected] at hinside
  rw [Environment.evaluate_eq_treeEvaluate hbody, Environment.treeEvaluate_of_distinct hdistinct,
    ← ParameterTable.last?_eq_first? hdistinct] at hinside
  -- and outside it so has what it has become
  have htable' : table.KeyedBySymbols s := ⟨fun n hn => ⟨hgrown n (htable.symbols n hn).1,
    (htable.symbols n hn).2⟩, htable.distinct⟩
  rw [Environment.evaluate_eq_treeEvaluate hinlined, Environment.treeEvaluate_of_distinct htable.distinct]
  have houtside : List.Forall₂ (fun a x =>
      treeValue table.first? (functions.call []) inlined a = .ok x) args values :=
    hvalues.imp fun a x hx => treeValue_mono (fun _ _ _ _ h => h) hx
  exact treeValue_inlined
    (fun _ _ _ _ => callInside_mono hfunctions (active_nil.cons List.not_mem_nil hfound)
      (List.nil_subset _))
    (binds_args houtside harity hr) _ hreplaced
    (fun n hn hsymbol => htable'.first?_eq_none (Graph.mem_of_within hinlined hn) hsymbol) hinside

/-! ### A caller and a function that share a symbol -/

/-- The nodes `a`, `a * a`, `square(a)`, `square(a) + a` and `raise(square(a) + a)`. -/
def raiseNodes : List Expr :=
  let a := .symbol 4 "a"
  let raised := .binary 7 .add (.call 6 "square" [a] 0) a
  [a, .binary 5 .mul a a, .call 6 "square" [a] 0, raised, .call 8 "raise" [raised] 0]

def raiseGraph : Graph where
  nodes := { n | n ∈ raiseNodes }
  closed := by
    intro n hn c hc
    simp only [raiseNodes, Set.mem_ofPred_eq, List.mem_cons, List.not_mem_nil, or_false] at hn ⊢
    rcases hn with rfl | rfl | rfl | rfl | rfl <;> simp_all [Expr.children]
    tauto
  unique := fun _ ha _ hb hid =>
    List.inj_on_of_nodup_map (f := Expr.id) (l := raiseNodes) (by decide) ha hb hid

/-- A function of `a`, which is the symbol of the caller. -/
def raiseFunction (name : String) (output : Expr) : ModelFunction where
  name := name
  inputs := [.symbol 4 "a"]
  outputs := [output]

/-- `square(a) = a * a` and `raise(a) = square(a) + a`. -/
def raiseTable : FunctionTable :=
  ((∅ : FunctionTable).insert "square"
    (raiseFunction "square" (.binary 5 .mul (.symbol 4 "a") (.symbol 4 "a")))).insert "raise"
    (raiseFunction "raise" (.binary 7 .add (.call 6 "square" [.symbol 4 "a"] 0) (.symbol 4 "a")))

theorem raiseTable_square : raiseTable["square"]? =
    some (raiseFunction "square" (.binary 5 .mul (.symbol 4 "a") (.symbol 4 "a"))) := by
  rw [raiseTable, Std.TreeMap.getElem?_insert, if_neg (by decide), Std.TreeMap.getElem?_insert_self]

theorem raiseTable_raise : raiseTable["raise"]? =
    some (raiseFunction "raise" (.binary 7 .add (.call 6 "square" [.symbol 4 "a"] 0) (.symbol 4 "a"))) :=
  Std.TreeMap.getElem?_insert_self

/-- Each function has one input and one output, which is a node of the graph. -/
theorem of_raiseTable {name : String} {f : ModelFunction} (h : raiseTable[name]? = some f) :
    f.inputs = [.symbol 4 "a"] ∧ ∀ o ∈ f.outputs, o ∈ raiseNodes := by
  simp only [raiseTable, Std.TreeMap.getElem?_insert] at h
  split at h
  · obtain rfl := Option.some.inj h
    simp [raiseFunction, raiseNodes]
  · split at h
    · obtain rfl := Option.some.inj h
      simp [raiseFunction, raiseNodes]
    · simp at h

/-- While `square` is not active it squares. -/
theorem callInside_square {active : List String} (hactive : "square" ∉ active) (x : Float) :
    raiseTable.callInside active "square" [x] 0 = .ok (x * x) := by
  rw [callInside_eq_ok_iff]
  refine ⟨hactive, _, [x * x], raiseTable_square, rfl, .cons ?_ .nil, rfl⟩
  rw [Environment.evaluate_eq_treeEvaluate (g := raiseGraph) (by change _ ∈ raiseNodes; simp [raiseNodes])]
  rfl

/-- Where `a` has a value and `square` squares, `square(a) + a` adds the two. -/
theorem treeValue_raised {known : Expr → Option Float} {call : CallSemantics} {whole : Expr} {x : Float}
    (ha : known (.symbol 4 "a") = some x) (hsquare : known (.call 6 "square" [.symbol 4 "a"] 0) = none)
    (hsum : known (.binary 7 .add (.call 6 "square" [.symbol 4 "a"] 0) (.symbol 4 "a")) = none)
    (hcall : call "square" [x] 0 = .ok (x * x)) :
    treeValue known call whole (.binary 7 .add (.call 6 "square" [.symbol 4 "a"] 0) (.symbol 4 "a")) =
      .ok (x * x + x) := by
  have hsymbol : treeValue known call whole (.symbol 4 "a") = .ok x := treeValue_of_known ha
  have hproduct : treeValue known call whole (.call 6 "square" [.symbol 4 "a"] 0) = .ok (x * x) := by
    rw [treeValue_eq_ok_iff hsquare rfl]
    exact ⟨[x], .cons hsymbol .nil, hcall⟩
  rw [treeValue_eq_ok_iff hsum rfl]
  exact ⟨[x * x, x], .cons hproduct (.cons hsymbol .nil), rfl⟩

/-- Inside a call of `raise` the sum is that of the argument. -/
theorem callInside_raise (x : Float) : raiseTable.callInside [] "raise" [x] 0 = .ok (x * x + x) := by
  rw [callInside_eq_ok_iff]
  refine ⟨List.not_mem_nil, _, [x * x + x], raiseTable_raise, rfl, .cons ?_ .nil, rfl⟩
  rw [Environment.evaluate_eq_treeEvaluate (g := raiseGraph) (by change _ ∈ raiseNodes; simp [raiseNodes])]
  exact treeValue_raised rfl rfl rfl (callInside_square (by simp) x)

/-- With `a = 2` the call of `raise` over `square(a) + a` and the sum with that put in for `a`, which is
    a symbol of the function and of the caller, both have the value 42. -/
theorem evaluate_inlined_raise :
    raiseTable.DrawnFrom raiseGraph ∧ raiseTable.InputsDistinct ∧
    (ParameterTable.ofRows [(.symbol 4 "a", 2.0)]).KeyedBySymbols raiseGraph ∧
    (raiseTable.environment (.ofRows [(.symbol 4 "a", 2.0)])).evaluate (.call 8 "raise"
      [.binary 7 .add (.call 6 "square" [.symbol 4 "a"] 0) (.symbol 4 "a")] 0) = .ok 42.0 ∧
    raiseGraph.Below { next := 9 } ∧
    ∃ r inlined supply, Replacements.ofLists? [.symbol 4 "a"]
        [.binary 7 .add (.call 6 "square" [.symbol 4 "a"] 0) (.symbol 4 "a")] = some r ∧
      (Expr.binary 7 .add (.call 6 "square" [.symbol 4 "a"] 0) (.symbol 4 "a")).substitute? r
        { next := 9 } = some (inlined, supply) ∧
      (raiseTable.environment (.ofRows [(.symbol 4 "a", 2.0)])).evaluate inlined = .ok 42.0 := by
  have hdrawn : raiseTable.DrawnFrom raiseGraph := fun _ _ hf o ho => (of_raiseTable hf).2 o ho
  have hinputs : raiseTable.InputsDistinct := by
    intro name f hf
    rw [(of_raiseTable hf).1]
    decide
  have htable : (ParameterTable.ofRows [(.symbol 4 "a", 2.0)]).KeyedBySymbols raiseGraph := by
    refine ⟨fun n hn => ?_, List.nodup_singleton _⟩
    rw [List.mem_singleton.1 hn]
    exact ⟨List.mem_cons_self, rfl⟩
  have hcall : .call 8 "raise" [.binary 7 .add (.call 6 "square" [.symbol 4 "a"] 0) (.symbol 4 "a")] 0 ∈
      raiseGraph := by
    change _ ∈ raiseNodes
    simp [raiseNodes]
  have hnumber : ((2.0 * 2.0 + 2.0) * (2.0 * 2.0 + 2.0) + (2.0 * 2.0 + 2.0) : Float) = 42.0 := by decide
  have hvalue : (raiseTable.environment (.ofRows [(.symbol 4 "a", 2.0)])).evaluate (.call 8 "raise"
      [.binary 7 .add (.call 6 "square" [.symbol 4 "a"] 0) (.symbol 4 "a")] 0) = .ok 42.0 := by
    rw [Environment.evaluate_eq_treeEvaluate hcall, Environment.treeEvaluate_of_distinct htable.distinct,
      treeValue_eq_ok_iff (htable.first?_eq_none hcall rfl) rfl]
    refine ⟨[2.0 * 2.0 + 2.0], .cons ?_ .nil, ?_⟩
    · exact treeValue_raised rfl rfl rfl (callInside_square List.not_mem_nil 2.0)
    · rw [← hnumber]
      exact callInside_raise (2.0 * 2.0 + 2.0)
  have hbelow : raiseGraph.Below { next := 9 } := by
    change ∀ n ∈ raiseNodes, n.id < 9
    decide
  obtain ⟨f, body, r, hfound, hbody, hr, hinlined⟩ := evaluate_inlined raiseGraph raiseTable hdrawn hinputs
    _ htable 8 "raise" _ 0 hcall 42.0 hvalue
  obtain rfl := Option.some.inj (raiseTable_raise.symm.trans hfound)
  obtain rfl := Option.some.inj hbody
  obtain ⟨inlined, supply, hsubstitute, hsame⟩ := hinlined _ hbelow
  exact ⟨hdrawn, hinputs, htable, hvalue, hbelow, r, inlined, supply, hr, hsubstitute, hsame⟩

end FunctionTable

end FlatDae
