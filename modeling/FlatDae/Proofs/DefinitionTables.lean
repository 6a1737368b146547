/-
Module: FlatDae.Proofs.DefinitionTables
Purpose: Tables that give definitions their values. Evaluating ordered definitions one after the other
  fills a table in which every definition holds, evaluated over the whole table; and from any such table
  the values are found along every order. So the values do not depend on the order.
Main exports: Solves, ParameterTable.KeyedBySymbols.push, Model.solves_of_foldlM,
  Model.foldlM_of_solves, Model.solve_of_solves
-/
import FlatDae.Proofs.Calculation
import FlatDae.Proofs.DefinitionOrder
import FlatDae.Proofs.TableAgreement

namespace FlatDae

open FlatDae.Expr (Graph)

/-! ### One more row -/

namespace ParameterTable

theorem nodes_push (table : ParameterTable) (n : Expr) (value : Float) :
    (table.push n value).nodes = table.nodes ++ [n] := by
  simp [push, nodes]

/-- A node that is none of a table's is not known. -/
theorem first?_eq_none {table : ParameterTable} {e : Expr} (h : ∀ n ∈ table.nodes, n.id ≠ e.id) :
    table.first? e = none := by
  cases hfirst : table.first? e with
  | none => rfl
  | some value =>
      obtain ⟨n, hrow, hid⟩ := exists_row_of_first? hfirst
      exact absurd hid (h n (List.mem_map.2 ⟨_, hrow, rfl⟩))

/-- Occurrences of one node have one value. -/
theorem first?_congr (table : ParameterTable) {e e' : Expr} (h : e.id = e'.id) :
    table.first? e = table.first? e' := by
  simp only [first?, Expr.same, h]

/-- One more row says nothing of other nodes. -/
theorem first?_push_of_ne (table : ParameterTable) {n e : Expr} (value : Float) (h : n.id ≠ e.id) :
    (table.push n value).first? e = table.first? e := by
  have hsame : n.same e = false := by simpa [Expr.same] using h
  simp [first?, push, Array.find?_push, hsame]

/-- A new row gives the value of its node. -/
theorem first?_push_self {table : ParameterTable} {n : Expr} (value : Float)
    (h : ∀ n' ∈ table.nodes, n'.id ≠ n.id) : (table.push n value).first? n = some value := by
  have hnone := first?_eq_none h
  rw [first?, Option.map_eq_none_iff] at hnone
  simp only [first?, push, Array.find?_push, hnone]
  simp [Expr.same]

namespace KeyedBySymbols

variable {g : Graph} {table : ParameterTable}

/-- A node of the graph that is none of the table's is not known. -/
theorem first?_eq_none_of_not_mem (h : table.KeyedBySymbols g) {e : Expr} (he : e ∈ g)
    (hnot : e ∉ table.nodes) : table.first? e = none := by
  refine ParameterTable.first?_eq_none fun n hn hid => hnot ?_
  rwa [← Graph.eq_of_id_eq (h.symbols n hn).1 he hid]

theorem push (h : table.KeyedBySymbols g) {n : Expr} (hn : n ∈ g) (hsymbol : n.isSymbol = true)
    (hnew : ∀ n' ∈ table.nodes, n'.id ≠ n.id) (value : Float) :
    (table.push n value).KeyedBySymbols g where
  symbols := by
    intro n' hn'
    rw [nodes_push, List.mem_append, List.mem_singleton] at hn'
    rcases hn' with hold | rfl
    · exact h.symbols n' hold
    · exact ⟨hn, hsymbol⟩
  distinct := by
    rw [Distinct, nodes_push, List.map_append, List.nodup_append]
    refine ⟨h.distinct, by simp, ?_⟩
    intro id hid id' hid' heq
    obtain ⟨n', hn', rfl⟩ := List.mem_map.1 hid
    rw [List.map_singleton, List.mem_singleton] at hid'
    exact hnew n' hn' (heq.trans hid')

end KeyedBySymbols

end ParameterTable

/-- A row for a symbol that an expression does not mention is nothing to the expression. -/
theorem Environment.evaluate_push {g : Graph} {e n : Expr} (he : e ∈ g) {table : ParameterTable}
    (h : table.KeyedBySymbols g) (hn : n ∈ g) (hsymbol : n.isSymbol = true)
    (hnew : ∀ n' ∈ table.nodes, n'.id ≠ n.id) (value : Float) (call : CallSemantics)
    (hmention : n ∉ e.symbols) :
    ({ table := table.push n value, call } : Environment).evaluate e =
      ({ table, call } : Environment).evaluate e := by
  refine evaluate_congr he (h.push hn hsymbol hnew value) h call fun s hs => ?_
  refine table.first?_push_of_ne value fun hid => hmention ?_
  have hmem : s ∈ g := Graph.mem_of_within he ((Expr.mem_symbols he).1 hs).2
  rw [Graph.eq_of_id_eq hn hmem hid]
  exact hs

/-! ### Tables in which definitions hold -/

/-- The table has a row for each definition and no other, and each definition holds over the whole
    table. -/
structure Solves (call : CallSemantics) (ds : List Definition) (table : ParameterTable) : Prop where
  nodes : table.nodes.Perm (ds.map Definition.symbol)
  solved : ∀ d ∈ ds, ∃ value, table.first? d.symbol = some value ∧
    ({ table, call } : Environment).evaluate d.value = .ok value

section Orders

variable {g : Graph} {ds : List Definition} {table : ParameterTable}

theorem keyedBySymbols_of_nodes (hdrawn : Definition.DrawnFrom g ds)
    (h : table.nodes.Perm (ds.map Definition.symbol)) : table.KeyedBySymbols g where
  symbols := by
    intro n hn
    obtain ⟨d, hd, rfl⟩ := List.mem_map.1 (h.mem_iff.1 hn)
    exact hdrawn.symbols d hd
  distinct := by
    have hids : (table.nodes.map Expr.id).Perm (ds.map fun d => d.symbol.id) := by
      have hmapped := h.map Expr.id
      rwa [List.map_map] at hmapped
    exact hids.nodup_iff.2 hdrawn.distinct

variable {before rest : List Definition} {d : Definition}

/-- In an ordered list no definition up to a place mentions the symbol that is defined there. -/
theorem Ordered.not_mentioned (h : Ordered (before ++ d :: rest))
    (hdrawn : Definition.DrawnFrom g (before ++ d :: rest)) {d' : Definition}
    (hd' : d' ∈ before ++ [d]) : d.symbol ∉ d'.value.symbols := by
  intro hmention
  have hd : d ∈ before ++ d :: rest := List.mem_append_right _ List.mem_cons_self
  have hmem : d' ∈ before ++ d :: rest := by
    rcases List.mem_append.1 hd' with hbefore | hself
    · exact List.mem_append_left _ hbefore
    · rwa [List.mem_singleton.1 hself]
  have hlt := h.idxOf_lt hdrawn hmem hd hmention
  have hnot : d.symbol.id ∉ before.map fun d => d.symbol.id := by
    have hdistinct := hdrawn.distinct
    rw [List.map_append] at hdistinct
    exact fun hid => (List.nodup_append.1 hdistinct).2.2 _ hid _ List.mem_cons_self rfl
  rw [List.map_append, List.idxOf_append_of_notMem hnot, List.map_cons, List.idxOf_cons_self] at hlt
  rcases List.mem_append.1 hd' with hbefore | hself
  · have hmap : d'.symbol.id ∈ before.map fun d => d.symbol.id := List.mem_map.2 ⟨d', hbefore, rfl⟩
    rw [List.idxOf_append_of_mem hmap] at hlt
    have hbound := List.idxOf_lt_length_iff.2 hmap
    omega
  · rw [List.mem_singleton.1 hself, List.idxOf_append_of_notMem hnot, List.idxOf_cons_self] at hlt
    exact Nat.lt_irrefl _ hlt

/-- The symbol defined at a place is none of those defined before. -/
theorem symbol_new (hdrawn : Definition.DrawnFrom g (before ++ d :: rest)) {table : ParameterTable}
    (hnodes : table.nodes = before.map Definition.symbol) : ∀ n ∈ table.nodes, n.id ≠ d.symbol.id := by
  intro n hn
  rw [hnodes] at hn
  obtain ⟨d', hd', rfl⟩ := List.mem_map.1 hn
  have hdistinct := hdrawn.distinct
  rw [List.map_append] at hdistinct
  exact (List.nodup_append.1 hdistinct).2.2 _ (List.mem_map.2 ⟨d', hd', rfl⟩) _ List.mem_cons_self

end Orders

namespace Model

variable {m : Model} {g : Graph}

/-- Going on from a table in which the definitions so far hold ends in one in which all hold. The
    induction is on the definitions still to come; no later row is mentioned by an earlier value. -/
theorem solves_of_foldlM_append (rest before : List Definition) (start table : ParameterTable)
    (hdrawn : Definition.DrawnFrom g (before ++ rest)) (hordered : Ordered (before ++ rest))
    (hnodes : start.nodes = before.map Definition.symbol)
    (hsolved : ∀ d ∈ before, ∃ value, start.first? d.symbol = some value ∧
      (m.environment start).evaluate d.value = .ok value)
    (hfold : rest.foldlM m.extendTable start = .ok table) :
    table.nodes = (before ++ rest).map Definition.symbol ∧
    ∀ d ∈ before ++ rest, ∃ value, table.first? d.symbol = some value ∧
      (m.environment table).evaluate d.value = .ok value := by
  induction rest generalizing before start with
  | nil =>
      obtain rfl : start = table := Except.ok.inj hfold
      rw [List.append_nil]
      exact ⟨hnodes, hsolved⟩
  | cons d rest ih =>
      rw [List.foldlM_cons] at hfold
      cases hvalue : (m.environment start).evaluate d.value with
      | error error =>
          simp only [extendTable, hvalue] at hfold
          cases hfold
      | ok value =>
          simp only [extendTable, hvalue] at hfold
          obtain ⟨hd, hsymbol⟩ := hdrawn.symbols d (List.mem_append_right _ List.mem_cons_self)
          have hnew := symbol_new hdrawn hnodes
          have hkeyed : start.KeyedBySymbols g :=
            keyedBySymbols_of_nodes (hdrawn.sublist (List.sublist_append_left _ _)) (by rw [hnodes])
          have hsame : ∀ d' ∈ before ++ [d],
              (m.environment (start.push d.symbol value)).evaluate d'.value =
                (m.environment start).evaluate d'.value := by
            intro d' hd'
            have hvalue' : d'.value ∈ g := by
              refine hdrawn.values d' ?_
              rw [List.append_cons]
              exact List.mem_append_left _ hd'
            exact Environment.evaluate_push hvalue' hkeyed hd hsymbol hnew value _
              (hordered.not_mentioned hdrawn hd')
          rw [List.append_cons] at hdrawn hordered ⊢
          refine ih (before ++ [d]) (start.push d.symbol value) hdrawn hordered ?_ ?_ hfold
          · rw [ParameterTable.nodes_push, hnodes, List.map_append, List.map_singleton]
          · intro d' hd'
            rw [hsame d' hd']
            rcases List.mem_append.1 hd' with hbefore | hself
            · obtain ⟨value', hfirst, hevaluate⟩ := hsolved d' hbefore
              have hmem : d'.symbol ∈ start.nodes := hnodes ▸ List.mem_map.2 ⟨d', hbefore, rfl⟩
              have hne := hnew d'.symbol hmem
              exact ⟨value', by rw [start.first?_push_of_ne value hne.symm, hfirst], hevaluate⟩
            · rw [List.mem_singleton.1 hself]
              exact ⟨value, ParameterTable.first?_push_self value hnew, hvalue⟩

/-- Evaluating ordered definitions one after the other solves them, with a row for each in their
    order. -/
theorem solves_of_foldlM {order : List Definition} {table : ParameterTable}
    (hdrawn : Definition.DrawnFrom g order) (hordered : Ordered order)
    (hfold : order.foldlM m.extendTable {} = .ok table) :
    table.nodes = order.map Definition.symbol ∧ Solves (m.functions.call []) order table := by
  obtain ⟨hnodes, hsolved⟩ := solves_of_foldlM_append order [] {} table hdrawn hordered rfl
    (fun d hd => absurd hd List.not_mem_nil) hfold
  exact ⟨hnodes, by rw [hnodes]; rfl, hsolved⟩

/-- From a table in which definitions hold their values are found along every order. The induction is on
    the definitions still to come, those before having the values of the table. -/
theorem foldlM_of_solves_append {ds : List Definition} {solution : ParameterTable}
    (hsolves : Solves (m.functions.call []) ds solution) (rest before : List Definition)
    (start : ParameterTable) (hdrawn : Definition.DrawnFrom g (before ++ rest))
    (hperm : (before ++ rest).Perm ds) (hordered : Ordered (before ++ rest))
    (hnodes : start.nodes = before.map Definition.symbol)
    (hvalues : ∀ d ∈ before, start.first? d.symbol = solution.first? d.symbol) :
    ∃ table, rest.foldlM m.extendTable start = .ok table ∧
      table.nodes = (before ++ rest).map Definition.symbol ∧
      ∀ d ∈ before ++ rest, table.first? d.symbol = solution.first? d.symbol := by
  induction rest generalizing before start with
  | nil => exact ⟨start, rfl, by rw [List.append_nil]; exact ⟨hnodes, hvalues⟩⟩
  | cons d rest ih =>
      have hdmem : d ∈ before ++ d :: rest := List.mem_append_right _ List.mem_cons_self
      have hd := hdrawn.symbols d hdmem
      have hkeyed : start.KeyedBySymbols g :=
        keyedBySymbols_of_nodes (hdrawn.sublist (List.sublist_append_left _ _)) (by rw [hnodes])
      have hsolution : solution.KeyedBySymbols g :=
        keyedBySymbols_of_nodes (hdrawn.of_perm hperm.symm) hsolves.nodes
      obtain ⟨value, hfirst, hevaluate⟩ := hsolves.solved d (hperm.mem_iff.1 hdmem)
      have hagree : ∀ s ∈ d.value.symbols, start.first? s = solution.first? s := by
        intro s hs
        have hmem : s ∈ g :=
          Graph.mem_of_within (hdrawn.values d hdmem)
            ((Expr.mem_symbols (hdrawn.values d hdmem)).1 hs).2
        by_cases hdefined : s ∈ (before ++ d :: rest).map Definition.symbol
        · obtain ⟨d', hd', rfl⟩ := List.mem_map.1 hdefined
          exact hvalues d' (hordered before d ⟨rest, by simp⟩ d' hd' hs)
        · rw [hkeyed.first?_eq_none_of_not_mem hmem, hsolution.first?_eq_none_of_not_mem hmem]
          · rwa [hsolves.nodes.mem_iff, ← (hperm.map _).mem_iff]
          · intro hstart
            rw [hnodes] at hstart
            exact hdefined (List.map_append ▸ List.mem_append_left _ hstart)
      have hvalue : (m.environment start).evaluate d.value = .ok value :=
        (Environment.evaluate_congr (hdrawn.values d hdmem) hkeyed hsolution _ hagree).trans hevaluate
      have hnew := symbol_new hdrawn hnodes
      rw [List.append_cons] at hdrawn hordered hperm ⊢
      obtain ⟨table, hfold, hrest⟩ := ih (before ++ [d]) (start.push d.symbol value) hdrawn hperm hordered
        (by rw [ParameterTable.nodes_push, hnodes, List.map_append, List.map_singleton]) (by
          intro d' hd'
          rcases List.mem_append.1 hd' with hbefore | hself
          · have hmem : d'.symbol ∈ start.nodes := hnodes ▸ List.mem_map.2 ⟨d', hbefore, rfl⟩
            rw [start.first?_push_of_ne value (hnew d'.symbol hmem).symm, hvalues d' hbefore]
          · rw [List.mem_singleton.1 hself, ParameterTable.first?_push_self value hnew, hfirst])
      refine ⟨table, ?_, hrest⟩
      rw [List.foldlM_cons]
      simp only [extendTable, hvalue]
      exact hfold

/-- Along any order of definitions that hold in a table the same values are found. -/
theorem foldlM_of_solves {ds order : List Definition} {solution : ParameterTable}
    (hsolves : Solves (m.functions.call []) ds solution) (hdrawn : Definition.DrawnFrom g order)
    (hperm : order.Perm ds) (hordered : Ordered order) :
    ∃ table, order.foldlM m.extendTable {} = .ok table ∧
      ∀ s, table.first? s = solution.first? s := by
  obtain ⟨table, hfold, hnodes, hvalues⟩ := foldlM_of_solves_append hsolves order [] {} hdrawn hperm
    hordered rfl (fun d hd => absurd hd List.not_mem_nil)
  refine ⟨table, hfold, fun s => ?_⟩
  by_cases hdefined : ∃ d ∈ order, d.symbol.id = s.id
  · obtain ⟨d, hd, hid⟩ := hdefined
    rw [← table.first?_congr hid, ← solution.first?_congr hid]
    exact hvalues d hd
  · have hother {other : ParameterTable} (h : other.nodes.Perm (order.map Definition.symbol)) :
        ∀ n ∈ other.nodes, n.id ≠ s.id := by
      intro n hn hid
      obtain ⟨d, hd, rfl⟩ := List.mem_map.1 (h.mem_iff.1 hn)
      exact hdefined ⟨d, hd, hid⟩
    rw [ParameterTable.first?_eq_none (hother (by rw [hnodes]; rfl)),
      ParameterTable.first?_eq_none (hother (hsolves.nodes.trans (hperm.map _).symm))]

/-- The values of a model are found if its definitions can be ordered and hold in some table, and they
    are those of that table. -/
theorem solve_of_solves {ds : Array Definition} {order : List Definition} {solution : ParameterTable}
    (hds : m.definitions = .ok ds) (hdrawn : Definition.DrawnFrom g ds.toList)
    (hperm : order.Perm ds.toList) (hordered : Ordered order)
    (hsolves : Solves (m.functions.call []) order solution) :
    ∃ table, m.solve = .ok table ∧ ∀ s, table.first? s = solution.first? s := by
  obtain ⟨found, hfound⟩ := definitionOrder_isOk_of_ordered hdrawn hperm hordered
  have hspec := definitionOrder_spec hdrawn
  rw [hfound] at hspec
  obtain ⟨table, hfold, hvalues⟩ := foldlM_of_solves hsolves (hdrawn.of_perm hspec.1)
    (hspec.1.trans hperm.symm) hspec.2
  refine ⟨table, ?_, hvalues⟩
  simp only [solve, hds, bind, Except.bind, hfound]
  exact hfold

end Model

end FlatDae
