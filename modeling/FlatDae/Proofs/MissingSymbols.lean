/-
Module: FlatDae.Proofs.MissingSymbols
Purpose: When an arithmetic expression has a value, and what is missing if it has none. Evaluation replaces
  the known symbols and walks over a graph of its own making; the symbol that it reports is all the same
  the first one that is not known in the list of the symbols of the expression, since both walks follow the
  leaves of the tree.
Main exports: Expr.Arithmetic, treeValue_of_known_leaves, treeValue_of_missing_leaf,
  Environment.evaluate?_missing
-/
import FlatDae.Proofs.SymbolOccurrences
import FlatDae.Proofs.TableAgreement

namespace FlatDae

open FlatDae.Expr (Graph)

/-- Expressions of constants, symbols and operators only. -/
inductive Expr.Arithmetic : Expr → Prop where
  | constant (id : NodeId) (value : Float) : Arithmetic (.constant id value)
  | symbol (id : NodeId) (name : String) : Arithmetic (.symbol id name)
  | unary (id : NodeId) (op : UnaryOp) {child : Expr} (hchild : child.Arithmetic) :
      Arithmetic (.unary id op child)
  | binary (id : NodeId) (op : BinaryOp) {left right : Expr} (hleft : left.Arithmetic)
      (hright : right.Arithmetic) : Arithmetic (.binary id op left right)

/-! ### By recursion -/

section Tree

variable {known : Expr → Option Float} {call : CallSemantics} {whole e : Expr}

/-- A node that is known has a value anyway. -/
theorem exists_value_of_unknown (h : known e = none → ∃ value, treeValue known call whole e = .ok value) :
    ∃ value, treeValue known call whole e = .ok value := by
  cases hknown : known e with
  | some value => exact ⟨value, treeValue_of_known hknown⟩
  | none => exact h hknown

/-- An arithmetic expression has a value if its symbols have. -/
theorem treeValue_of_known_leaves (harithmetic : e.Arithmetic)
    (hleaves : ∀ s ∈ e.symbolLeaves, (known s).isSome = true) :
    ∃ value, treeValue known call whole e = .ok value := by
  induction harithmetic with
  | constant id value => exact exists_value_of_unknown fun hknown => ⟨value, by rw [treeValue.eq_def, hknown]⟩
  | symbol id name =>
      refine exists_value_of_unknown fun hknown => ?_
      simp [Expr.symbolLeaves, hknown] at hleaves
  | unary id op hchild ih =>
      rcases ih hleaves with ⟨x, hx⟩
      refine exists_value_of_unknown fun hknown => ⟨op.apply x, ?_⟩
      rw [treeValue.eq_def, hknown]
      simp only [hx]
      rfl
  | binary id op hleft hright ihleft ihright =>
      rcases ihleft fun s hs => hleaves s (List.mem_append_left _ hs) with ⟨x, hx⟩
      rcases ihright fun s hs => hleaves s (List.mem_append_right _ hs) with ⟨y, hy⟩
      refine exists_value_of_unknown fun hknown => ⟨op.apply x y, ?_⟩
      rw [treeValue.eq_def, hknown]
      simp only [hx, hy]
      rfl

/-- Where nothing but symbols is known, the first leaf that is not known is the one reported. -/
theorem treeValue_of_missing_leaf (harithmetic : e.Arithmetic)
    (hunknown : ∀ n, n.Within e → n.isSymbol = false → known n = none) {before after : List Expr}
    {id : NodeId} {name : String} (hleaves : e.symbolLeaves = before ++ .symbol id name :: after)
    (hbefore : ∀ s ∈ before, (known s).isSome = true) (hmissing : known (.symbol id name) = none) :
    treeValue known call whole e = .error (.unresolved name whole.print) := by
  induction harithmetic generalizing before after with
  | constant i value => simp [Expr.symbolLeaves] at hleaves
  | symbol i name' =>
      rcases List.append_eq_singleton_iff.1 hleaves.symm with ⟨rfl, hself⟩ | ⟨-, hnil⟩
      · cases hself
        exact treeValue_of_obstacle hmissing rfl
      · cases hnil
  | unary i op hchild ih =>
      have hchild := ih (fun n hn => hunknown n (hn.trans (.child (by simp [Expr.children])))) hleaves hbefore
      rw [treeValue.eq_def, hunknown _ (.self _) rfl]
      simp only [hchild]
      rfl
  | @binary i op left right hleft hright ihleft ihright =>
      have hunder {c : Expr} (hc : c ∈ [left, right]) (n : Expr) (hn : n.Within c) :=
        hunknown n (hn.trans (.child hc))
      rw [treeValue.eq_def, hunknown _ (.self _) rfl]
      rcases Expr.append_eq_append_cons hleaves with ⟨later, rfl, hright'⟩ | ⟨others, hleft'⟩
      · -- on the left everything is known
        have hvalue : ∃ x, treeValue known call whole left = .ok x :=
          treeValue_of_known_leaves hleft fun s hs => hbefore s (List.mem_append_left _ hs)
        rcases hvalue with ⟨x, hx⟩
        have hright := ihright (hunder (by simp)) hright' fun s hs => hbefore s (List.mem_append_right _ hs)
        simp only [hx, hright]
        rfl
      · have hleft := ihleft (hunder (by simp)) hleft' hbefore
        simp only [hleft]
        rfl

end Tree

/-! ### By the evaluator -/

/-- The last row knows just the nodes of the table. -/
theorem ParameterTable.OnSymbols.isSome_last?_iff {g : Graph} {table : ParameterTable}
    (h : table.OnSymbols g) {n : Expr} (hn : n ∈ g) : (table.last? n).isSome = true ↔ n ∈ table.nodes := by
  rw [isSome_last?, List.any_eq_true]
  constructor
  · rintro ⟨m, hm, hsame⟩
    exact Graph.eq_of_id_eq (h m hm).1 hn (by simpa [Expr.same] using hsame) ▸ hm
  · exact fun hmem => ⟨n, hmem, by simp [Expr.same]⟩

section Evaluator

variable {g : Graph} {e : Expr} {env : Environment}

/-- What a table keyed by symbols knows by itself is a symbol. -/
theorem ParameterTable.OnSymbols.isSymbol_of_first? {table : ParameterTable} (h : table.OnSymbols g)
    (he : e ∈ g) {value : Float} (hvalue : table.first? e = some value) : e.isSymbol = true := by
  by_contra hother
  rw [(h.unknown he (by simpa using hother)).1] at hvalue
  cases hvalue

theorem Environment.exists_treeEvaluate (he : e ∈ g) (harithmetic : e.Arithmetic)
    (htable : env.table.OnSymbols g) (hsymbols : ∀ s ∈ e.symbols, s ∈ env.table.nodes) :
    ∃ value, env.treeEvaluate e = .ok value := by
  rw [treeEvaluate]
  cases hfirst : env.table.first? e with
  | some value => exact ⟨value, rfl⟩
  | none =>
      refine treeValue_of_known_leaves harithmetic fun s hs => ?_
      have hleaf := (Expr.mem_symbolLeaves e).1 hs
      rw [htable.isSome_last?_iff (Graph.mem_of_within he hleaf.2)]
      exact hsymbols s ((Expr.mem_symbols he).2 hleaf)

/-- The first symbol of the list that is not in the table is the one reported. -/
theorem Environment.treeEvaluate_of_missing (he : e ∈ g) (harithmetic : e.Arithmetic)
    (htable : env.table.OnSymbols g) {id : NodeId} {name : String}
    (hfind : e.symbols.find? (fun s => !(env.table.last? s).isSome) = some (.symbol id name)) :
    env.treeEvaluate e = .error (.unresolved name e.print) := by
  have hmissing : (env.table.last? (.symbol id name)).isSome = false := by simpa using List.find?_some hfind
  rw [treeEvaluate]
  cases hfirst : env.table.first? e with
  | some value =>
      -- a symbol that is in the table is its only symbol
      have hleaves := Expr.symbolLeaves_of_isSymbol (htable.isSymbol_of_first? he hfirst)
      have hself := List.mem_of_find?_eq_some (Expr.find?_symbols he _ ▸ hfind)
      rw [hleaves, List.mem_singleton] at hself
      rw [hself, ParameterTable.isSome_last?, ← ParameterTable.isSome_first?, hfirst] at hmissing
      cases hmissing
  | none =>
      rw [Expr.find?_symbols he, List.find?_eq_some_iff_append] at hfind
      rcases hfind with ⟨-, before, after, hleaves, hbefore⟩
      refine treeValue_of_missing_leaf harithmetic (fun n hn hother => ?_) hleaves (fun s hs => ?_)
        (by simpa using hmissing)
      · exact (htable.unknown (Graph.mem_of_within he hn) hother).2
      · simpa using hbefore s hs

/-- If a symbol is not in the table then there is a first one, and it is reported. -/
theorem Environment.exists_missing (he : e ∈ g) (harithmetic : e.Arithmetic)
    (htable : env.table.OnSymbols g) (hsome : ¬ ∀ s ∈ e.symbols, s ∈ env.table.nodes) :
    ∃ before id name after, e.symbols = before ++ .symbol id name :: after ∧
      (∀ s ∈ before, s ∈ env.table.nodes) ∧ .symbol id name ∉ env.table.nodes ∧
      env.treeEvaluate e = .error (.unresolved name e.print) := by
  have hknown {s : Expr} (hs : s ∈ e.symbols) : (env.table.last? s).isSome = true ↔ s ∈ env.table.nodes :=
    htable.isSome_last?_iff (Graph.mem_of_within he ((Expr.mem_symbols he).1 hs).2)
  cases hfind : e.symbols.find? (fun s => !(env.table.last? s).isSome) with
  | none =>
      rw [List.find?_eq_none] at hfind
      refine absurd (fun s hs => (hknown hs).1 ?_) hsome
      simpa [Option.isSome_iff_ne_none] using hfind s hs
  | some s =>
      have hs := List.mem_of_find?_eq_some hfind
      cases s with
      | symbol id name =>
          obtain ⟨hnone, before, after, hsplit, hbefore⟩ := List.find?_eq_some_iff_append.1 hfind
          refine ⟨before, id, name, after, hsplit, fun s hs => ?_, fun hmem => ?_,
            treeEvaluate_of_missing he harithmetic htable hfind⟩
          · exact (hknown (by simp [hsplit, hs])).1 (by simpa using hbefore s hs)
          · simp [(hknown hs).2 hmem] at hnone
      | _ => cases ((Expr.mem_symbols he).1 hs).1

/-- A table keyed by symbols gives an arithmetic expression a value exactly if all its symbols are in the
    table. Otherwise the first of its symbols that is missing is reported, with the expression as it was
    given. -/
theorem Environment.evaluate?_missing (he : e ∈ g) (harithmetic : e.Arithmetic)
    (htable : env.table.OnSymbols g) :
    ((∃ value, env.evaluate? e = some (.ok value)) ↔ ∀ s ∈ e.symbols, s ∈ env.table.nodes) ∧
    ((¬ ∀ s ∈ e.symbols, s ∈ env.table.nodes) → ∃ before id name after,
      e.symbols = before ++ .symbol id name :: after ∧ (∀ s ∈ before, s ∈ env.table.nodes) ∧
      .symbol id name ∉ env.table.nodes ∧
      env.evaluate? e = some (.error (.unresolved name e.print))) := by
  simp only [evaluate?_eq he, Option.some.injEq]
  refine ⟨⟨?_, exists_treeEvaluate he harithmetic htable⟩, exists_missing he harithmetic htable⟩
  rintro ⟨value, hvalue⟩
  by_contra hsome
  obtain ⟨_, _, _, _, -, -, -, herror⟩ := exists_missing he harithmetic htable hsome
  rw [herror] at hvalue
  cases hvalue

/-- The value of `y` alone, and the values of `y` and `x`, in this order. -/
def valueOfY : Environment := { table := .ofRows [(.symbol 5 "y", 1.0)], call := FunctionTable.call ∅ [] }

def valuesOfYAndX : Environment where
  table := .ofRows [(.symbol 5 "y", 1.0), (.symbol 4 "x", 2.0)]
  call := FunctionTable.call ∅ []

/-- With the value of `y` alone the quotient `(x + y) * (x + y) / sin(y)` has none, and it is `x` that is
    reported. With both values it has one. -/
theorem Environment.evaluate?_missing_quotient :
    valueOfY.evaluate? (Expr.quotientOver 8 (.symbol 4 "x")) =
      some (.error (.unresolved "x" (Expr.quotientOver 8 (.symbol 4 "x")).print)) ∧
    ∃ value, valuesOfYAndX.evaluate? (Expr.quotientOver 8 (.symbol 4 "x")) = some (.ok value) := by
  have hnode {n : Expr} (h : n ∈ Expr.quotientNodes) : n ∈ Expr.quotientGraph := h
  have hmem : Expr.quotientOver 8 (.symbol 4 "x") ∈ Expr.quotientGraph :=
    hnode (by simp [Expr.quotientNodes])
  have hsum : (Expr.binary 8 .add (.symbol 4 "x") (.symbol 5 "y")).Arithmetic :=
    .binary 8 .add (.symbol 4 "x") (.symbol 5 "y")
  have harithmetic : (Expr.quotientOver 8 (.symbol 4 "x")).Arithmetic :=
    .binary 10 .div (.binary 9 .mul hsum hsum) (.unary 7 .sin (.symbol 5 "y"))
  have hsymbols : (Expr.quotientOver 8 (.symbol 4 "x")).symbols = [.symbol 4 "x", .symbol 5 "y"] :=
    (Expr.symbols_eq_eraseDupsBy hmem).trans rfl
  have hnodesY : valueOfY.table.nodes = [.symbol 5 "y"] := rfl
  have hnodesYX : valuesOfYAndX.table.nodes = [.symbol 5 "y", .symbol 4 "x"] := rfl
  have hy : valueOfY.table.OnSymbols Expr.quotientGraph := by
    intro n hn
    rw [hnodesY, List.mem_singleton] at hn
    exact ⟨hnode (by simp [Expr.quotientNodes, hn]), by rw [hn]; rfl⟩
  have hyx : valuesOfYAndX.table.OnSymbols Expr.quotientGraph := by
    intro n hn
    rw [hnodesYX] at hn
    simp at hn
    rcases hn with rfl | rfl <;> exact ⟨hnode (by simp [Expr.quotientNodes]), rfl⟩
  constructor
  · rcases (evaluate?_missing hmem harithmetic hy).2 (by simp [hsymbols, hnodesY]) with
      ⟨before, id, name, after, hsplit, hbefore, -, hresult⟩
    rw [hsymbols] at hsplit
    cases before with
    | nil =>
        cases hsplit
        exact hresult
    | cons s before =>
        have hknown := hbefore s List.mem_cons_self
        rw [← (List.cons.inj hsplit).1, hnodesY] at hknown
        simp at hknown
  · exact (evaluate?_missing hmem harithmetic hyx).1.2 (by simp [hsymbols, hnodesYX])

end Evaluator

end FlatDae
