/-
Module: FlatDae.Proofs.OrderIndependence
Purpose: Values do not depend on the order of registration. Runs that differ in it end in models with
  the same definitions in different orders, and a calculation finds the same values in all of them or
  in none.
Main exports: Model.definitions_perm, Model.solve_of_perm, Model.calculate_values
-/
import FlatDae.Proofs.ParameterValues
import FlatDae.Proofs.RegistrationOrder

namespace FlatDae

open FlatDae.Expr (Graph)

namespace Model

/-! ### The same variables in another order -/

section OtherOrders

variable {g : Graph} {m other : Model}

/-- The same variables with the same definitions, registered in another order, make a list of the same
    definitions in another order, which is complete if the first is. -/
theorem definitions_perm (hregistered : other.registered.toList.Perm m.registered.toList)
    (hsame : ∀ v ∈ m.registered, other.definition? v = m.definition? v) {ds : Array Definition}
    (hds : m.definitions = .ok ds) :
    ∃ ds', other.definitions = .ok ds' ∧ ds'.toList.Perm ds.toList := by
  have hmem {v : VarId} : v ∈ other.registered ↔ v ∈ m.registered := by
    rw [← Array.mem_toList_iff, ← Array.mem_toList_iff]
    exact hregistered.mem_iff
  obtain ⟨hall, hlist⟩ := definitions_eq_ok_iff.1 hds
  have hone {v : VarId} (hv : v ∈ m.registered) :
      ((other.store.get v).isTabled = true → (other.store.get v).value?.isSome = true) ∧
      m.defined? v = other.defined? v := by
    have hdefinition : m.definition? v = .ok (m.defined? v) :=
      ((m.store.get v).definition?_eq_ok_iff v _).2 ⟨hall v hv, rfl⟩
    rw [← hsame v hv] at hdefinition
    exact ((other.store.get v).definition?_eq_ok_iff v _).1 hdefinition
  refine ⟨(other.registered.toList.filterMap other.defined?).toArray,
    definitions_eq_ok_iff.2 ⟨fun v hv => (hone (hmem.1 hv)).1, rfl⟩, ?_⟩
  rw [hlist, List.toList_toArray]
  have hfilter : m.registered.toList.filterMap m.defined? =
      m.registered.toList.filterMap other.defined? :=
    List.filterMap_congr fun v hv => (hone (Array.mem_toList_iff.1 hv)).2
  rw [hfilter]
  exact hregistered.filterMap _

/-- Where the values of a model are found, the same are found in one with its variables registered in
    another order. -/
theorem solve_of_perm (hregistered : other.registered.toList.Perm m.registered.toList)
    (hsame : ∀ v ∈ m.registered, other.definition? v = m.definition? v)
    (hfunctions : other.functions = m.functions)
    (hdrawn : ∀ ds, m.definitions = .ok ds → Definition.DrawnFrom g ds.toList) {table : ParameterTable}
    (hsolve : m.solve = .ok table) :
    ∃ table', other.solve = .ok table' ∧ ∀ s, table'.first? s = table.first? s := by
  cases hds : m.definitions with
  | error error =>
      simp only [solve, hds, bind, Except.bind] at hsolve
      cases hsolve
  | ok ds =>
      cases horder : definitionOrder ds with
      | error error =>
          simp only [solve, hds, bind, Except.bind, horder] at hsolve
          cases hsolve
      | ok order =>
          simp only [solve, hds, bind, Except.bind, horder] at hsolve
          have hdsDrawn := hdrawn ds hds
          obtain ⟨ds', hds', hperm⟩ := definitions_perm hregistered hsame hds
          have hspec := definitionOrder_spec hdsDrawn
          rw [horder] at hspec
          -- the table found along one order is one in which the definitions hold
          have hsolves := solves_of_foldlM (hdsDrawn.of_perm hspec.1) hspec.2 hsolve
          exact solve_of_solves hds' (hdsDrawn.of_perm hperm) (hspec.1.trans hperm.symm) hspec.2
            (hfunctions ▸ hsolves.2)

/-- A calculation succeeds exactly if the values are found, which are then those of the model. -/
theorem solve_eq_ok_iff {table : ParameterTable} :
    m.solve = .ok table ↔
      calculate.answer m = .ok () ∧ (calculate.after m).parameters = table := by
  rw [(calculate_after_eq m).2, (calculate_after_eq m).1]
  cases m.solve with
  | error error => simp [Except.map]
  | ok found => simp [Except.map, Except.toOption]

/-- Models with the same variables and definitions, registered in different orders, have the same
    values or none. -/
theorem calculate_of_perm (hregistered : other.registered.toList.Perm m.registered.toList)
    (hsame : ∀ v ∈ m.registered, other.definition? v = m.definition? v)
    (hfunctions : other.functions = m.functions)
    (hdrawn : ∀ ds, m.definitions = .ok ds → Definition.DrawnFrom g ds.toList)
    (hok : calculate.answer m = .ok ()) :
    calculate.answer other = .ok () ∧
      ∀ s, (calculate.after other).parameters.first? s = (calculate.after m).parameters.first? s := by
  obtain ⟨table, hsolve, hvalues⟩ := solve_of_perm hregistered hsame hfunctions hdrawn
    (solve_eq_ok_iff.2 ⟨hok, rfl⟩)
  obtain ⟨hanswer, rfl⟩ := solve_eq_ok_iff.1 hsolve
  exact ⟨hanswer, hvalues⟩

end OtherOrders

/-- In every model whose types came before its variables a calculation that succeeds solves the model,
    and changes nothing that the values rest on. It succeeds and has the same values in every model
    that comes about with the same variables registered in another order, or else fails in all of
    them. -/
theorem calculate_values {g : Graph} {ops : List Operation} {m : Model}
    (h : Follows (fun m op => ¬ op.ChangesByHand m ∧ op.TypesFirst m) {} ops m)
    (hdrawn : m.DrawnFrom g) :
    (∀ m', calculate.run m = .ok () m' → m'.Solved ∧ KeepsGiven m m') ∧
    ∀ (ops' : List Operation) (other : Model),
      Follows (fun m op => ¬ op.ChangesByHand m ∧ op.TypesFirst m) {} ops' other →
      ops'.filter Operation.SetsUp = ops.filter Operation.SetsUp →
      other.registered.toList.Perm m.registered.toList →
      (calculate.answer other = .ok () ↔ calculate.answer m = .ok ()) ∧
      (calculate.answer m = .ok () →
        ∀ s, (calculate.after other).parameters.first? s = (calculate.after m).parameters.first? s) := by
  have happart : m.RegisteredApart := Runs.registeredApart registeredApart_empty h.runs
  refine ⟨?_, ?_⟩
  · intro m' hrun
    have hkeeps := KeepsGiven.calculate m
    rw [Action.after, hrun] at hkeeps
    exact ⟨solved_of_calculate happart hdrawn hrun, hkeeps⟩
  · intro ops' other hother hops hregistered
    have hm := h.registers
    have hm' := hother.registers
    rw [setUp, hops, ← setUp] at hm'
    have hmem {v : VarId} : v ∈ other.registered ↔ v ∈ m.registered := by
      rw [← Array.mem_toList_iff, ← Array.mem_toList_iff]
      exact hregistered.mem_iff
    have hsame : ∀ v ∈ m.registered, other.definition? v = m.definition? v := fun v hv =>
      (hm'.definition? v (hmem.2 hv)).trans (hm.definition? v hv).symm
    have hsame' : ∀ v ∈ other.registered, m.definition? v = other.definition? v := fun v hv =>
      (hsame v (hmem.1 hv)).symm
    have hfunctions : other.functions = m.functions := hm'.functions.trans hm.functions.symm
    have hdefinitions : ∀ ds, m.definitions = .ok ds → Definition.DrawnFrom g ds.toList :=
      fun ds hds => hdrawn.definitions happart hds
    have hdefinitions' : ∀ ds, other.definitions = .ok ds → Definition.DrawnFrom g ds.toList := by
      intro ds hds
      obtain ⟨ds', hds', hperm⟩ := definitions_perm hregistered.symm hsame' hds
      exact (hdefinitions ds' hds').of_perm hperm.symm
    refine ⟨⟨?_, ?_⟩, ?_⟩
    · exact fun hok =>
        (calculate_of_perm hregistered.symm hsame' hfunctions.symm hdefinitions' hok).1
    · exact fun hok => (calculate_of_perm hregistered hsame hfunctions hdefinitions hok).1
    · exact fun hok => (calculate_of_perm hregistered hsame hfunctions hdefinitions hok).2

/-! ### Two parameters in two orders -/

/-- The parameter `p = q * q`. -/
def productParameter : Variable :=
  { symbol := .symbol 4 "p"
    name := "p"
    name_eq := (Expr.print_symbol 4 "p").symm
    domain := .real
    causality := .internal
    variability := .parameter
    attributes := (∅ : Attributes).insert Variable.bindingAttribute
      (.expr (.binary 6 .mul (.symbol 5 "q") (.symbol 5 "q"))) }

/-- The parameter `q = 3`. -/
def factorParameter : Variable :=
  { symbol := .symbol 5 "q"
    name := "q"
    name_eq := (Expr.print_symbol 5 "q").symm
    domain := .real
    causality := .internal
    variability := .parameter
    attributes := (∅ : Attributes).insert Variable.bindingAttribute (.expr (.constant 7 3.0)) }

/-- Both parameters are made and then registered in the order given. -/
def productRun (v w : VarId) : List Operation :=
  [.create productParameter, .create factorParameter, .addVariable v, .addVariable w]

def productModel (v w : VarId) : Model := (productRun v w).foldl Operation.run {}

def productDefinition : Definition :=
  { target := ⟨0⟩, name := "p", symbol := .symbol 4 "p"
    value := .binary 6 .mul (.symbol 5 "q") (.symbol 5 "q"), dependent := true }

def factorDefinition : Definition :=
  { target := ⟨1⟩, name := "q", symbol := .symbol 5 "q", value := .constant 7 3.0, dependent := false }

def productTable : ParameterTable := .ofRows [(.symbol 5 "q", 3.0), (.symbol 4 "p", 9.0)]

def productGraph : Graph where
  nodes := { n | n = .symbol 4 "p" ∨ n = .symbol 5 "q" ∨ n = .constant 7 3.0 ∨
    n = .binary 6 .mul (.symbol 5 "q") (.symbol 5 "q") }
  closed := by
    rintro n (rfl | rfl | rfl | rfl) c hc <;> simp_all [Expr.children]
  unique := by
    rintro a (rfl | rfl | rfl | rfl) b (rfl | rfl | rfl | rfl) hid <;> simp_all [Expr.id]

theorem productRun_follows :
    Follows (fun m op => ¬ op.ChangesByHand m ∧ op.TypesFirst m) {} (productRun ⟨0⟩ ⟨1⟩)
      (productModel ⟨0⟩ ⟨1⟩) ∧
    Follows (fun m op => ¬ op.ChangesByHand m ∧ op.TypesFirst m) {} (productRun ⟨1⟩ ⟨0⟩)
      (productModel ⟨1⟩ ⟨0⟩) := by
  have hmade : Follows (fun m op => ¬ op.ChangesByHand m ∧ op.TypesFirst m) {}
      [.create productParameter, .create factorParameter]
      ([.create productParameter, .create factorParameter].foldl Operation.run {}) :=
    .step (.create factorParameter) (.step (.create productParameter) .start rfl ⟨id, trivial⟩) rfl
      ⟨id, trivial⟩
  constructor
  · refine .step _ (.step _ hmade ?_ ⟨id, ?_⟩) ?_ ⟨id, ?_⟩
    · exact Nat.zero_lt_two
    · exact fun declared hdeclared => nomatch hdeclared
    · exact Nat.one_lt_two
    · exact fun declared hdeclared => nomatch hdeclared
  · refine .step _ (.step _ hmade ?_ ⟨id, ?_⟩) ?_ ⟨id, ?_⟩
    · exact Nat.one_lt_two
    · exact fun declared hdeclared => nomatch hdeclared
    · exact Nat.zero_lt_two
    · exact fun declared hdeclared => nomatch hdeclared

theorem symbols_productDefinition : productDefinition.value.symbols = [.symbol 5 "q"] := by
  simp [productDefinition, Expr.symbols, Expr.foldNodes, Expr.children, Expr.id, Expr.collectSymbol,
    Expr.isSymbol]

theorem symbols_factorDefinition : factorDefinition.value.symbols = [] := by
  simp [factorDefinition, Expr.symbols, Expr.foldNodes, Expr.children, Expr.collectSymbol, Expr.isSymbol]

theorem productModel_definitions :
    (productModel ⟨0⟩ ⟨1⟩).definitions = .ok #[productDefinition, factorDefinition] := by
  have hp : isDependent productParameter = true := by
    change (!productDefinition.value.symbols.isEmpty) = true
    rw [symbols_productDefinition]
    rfl
  have hq : isDependent factorParameter = false := by
    change (!factorDefinition.value.symbols.isEmpty) = false
    rw [symbols_factorDefinition]
    rfl
  have hpDefinition : (productModel ⟨0⟩ ⟨1⟩).definition? ⟨0⟩ = .ok (some productDefinition) := by
    change ({ productParameter with
      declaredType := some (.builtin .real)
      kind := some (.parameter .real (isDependent productParameter)) } : Variable).definition? ⟨0⟩ = _
    rw [hp]
    rfl
  have hqDefinition : (productModel ⟨0⟩ ⟨1⟩).definition? ⟨1⟩ = .ok (some factorDefinition) := by
    change ({ factorParameter with
      declaredType := some (.builtin .real)
      kind := some (.parameter .real (isDependent factorParameter)) } : Variable).definition? ⟨1⟩ = _
    rw [hq]
    rfl
  have hregistered : (productModel ⟨0⟩ ⟨1⟩).registered.toList = [⟨0⟩, ⟨1⟩] := rfl
  rw [definitions, hregistered, List.mapM_cons, List.mapM_cons, hpDefinition, hqDefinition]
  rfl

theorem productModel_drawnFrom : (productModel ⟨0⟩ ⟨1⟩).DrawnFrom productGraph := by
  have hregistered {v : VarId} (hv : v ∈ (productModel ⟨0⟩ ⟨1⟩).registered) : v = ⟨0⟩ ∨ v = ⟨1⟩ := by
    have hlist : (productModel ⟨0⟩ ⟨1⟩).registered = #[⟨0⟩, ⟨1⟩] := rfl
    rw [hlist] at hv
    simpa using hv
  constructor
  · intro v hv
    rcases hregistered hv with rfl | rfl
    · exact ⟨Or.inl rfl, rfl⟩
    · exact ⟨Or.inr (Or.inl rfl), rfl⟩
  · intro v hv e he
    have hvalue (binding : Expr)
        (hbinding : ((productModel ⟨0⟩ ⟨1⟩).store.get v).binding? = some binding) : e = binding := by
      have hfound : ((productModel ⟨0⟩ ⟨1⟩).store.get v).value? = some binding := by
        rw [Variable.value?, hbinding]
        split <;> rfl
      exact Option.some.inj (he.symm.trans hfound)
    rcases hregistered hv with rfl | rfl
    · exact hvalue productDefinition.value rfl ▸ Or.inr (Or.inr (Or.inr rfl))
    · exact hvalue factorDefinition.value rfl ▸ Or.inr (Or.inr (Or.inl rfl))

/-- In the table each parameter has the value of its definition. -/
theorem productTable_solves (call : CallSemantics) :
    Solves call [factorDefinition, productDefinition] productTable := by
  have hdistinct : productTable.Distinct := by
    simp [productTable, ParameterTable.Distinct, ParameterTable.ofRows, ParameterTable.nodes, Expr.id]
  have htree {e : Expr} (he : e ∈ productGraph) :
      ({ table := productTable, call } : Environment).evaluate e =
        treeValue productTable.first? call e e := by
    rw [Environment.evaluate_eq_treeEvaluate he, Environment.treeEvaluate_of_distinct hdistinct]
  refine ⟨.refl _, ?_⟩
  intro d hd
  rcases (by simpa using hd : d = factorDefinition ∨ d = productDefinition) with rfl | rfl
  · exact ⟨3.0, rfl, htree (Or.inr (Or.inr (Or.inl rfl)))⟩
  · have hproduct : (3.0 * 3.0 : Float) = 9.0 := by decide
    exact ⟨9.0, rfl, (htree (Or.inr (Or.inr (Or.inr rfl)))).trans (congrArg Except.ok hproduct)⟩

/-- With `q = 3` both orders of registration give `p = 9`. -/
theorem calculate_values_product :
    Follows (fun m op => ¬ op.ChangesByHand m ∧ op.TypesFirst m) {} (productRun ⟨0⟩ ⟨1⟩)
      (productModel ⟨0⟩ ⟨1⟩) ∧
    (productModel ⟨0⟩ ⟨1⟩).DrawnFrom productGraph ∧
    Follows (fun m op => ¬ op.ChangesByHand m ∧ op.TypesFirst m) {} (productRun ⟨1⟩ ⟨0⟩)
      (productModel ⟨1⟩ ⟨0⟩) ∧
    calculate.answer (productModel ⟨0⟩ ⟨1⟩) = .ok () ∧
    calculate.answer (productModel ⟨1⟩ ⟨0⟩) = .ok () ∧
    (calculate.after (productModel ⟨1⟩ ⟨0⟩)).parameters.first? (.symbol 4 "p") = some 9.0 := by
  obtain ⟨hrun, hother⟩ := productRun_follows
  have hordered : Ordered [factorDefinition, productDefinition] := by
    rintro before d hprefix d' hd' hmem
    have hrefers : d = productDefinition ∧ d' = factorDefinition := by
      have hd : d = factorDefinition ∨ d = productDefinition := by
        simpa using hprefix.mem (List.mem_append_right before List.mem_cons_self)
      rcases hd with rfl | rfl
      · rw [symbols_factorDefinition] at hmem
        cases hmem
      · rw [symbols_productDefinition, List.mem_singleton] at hmem
        rcases (by simpa using hd' : d' = factorDefinition ∨ d' = productDefinition) with rfl | rfl
        · exact ⟨rfl, rfl⟩
        · cases hmem
    obtain ⟨rfl, rfl⟩ := hrefers
    cases before with
    | nil => cases (List.cons_prefix_cons.1 hprefix).1
    | cons first before => exact (List.cons_prefix_cons.1 hprefix).1 ▸ List.mem_cons_self
  obtain ⟨table, hsolve, hvalues⟩ := solve_of_solves productModel_definitions
    (productModel_drawnFrom.definitions (Runs.registeredApart registeredApart_empty hrun.runs)
      productModel_definitions)
    (.swap _ _ _) hordered (productTable_solves _)
  obtain ⟨hok, rfl⟩ := solve_eq_ok_iff.1 hsolve
  obtain ⟨hiff, hsame⟩ := (calculate_values hrun productModel_drawnFrom).2 _ _ hother rfl (.swap _ _ _)
  refine ⟨hrun, productModel_drawnFrom, hother, hok, hiff.2 hok, ?_⟩
  rw [hsame hok, hvalues]
  rfl

end Model

end FlatDae
