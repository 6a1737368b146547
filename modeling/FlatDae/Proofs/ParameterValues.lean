/-
Module: FlatDae.Proofs.ParameterValues
Purpose: What a calculation finds. A calculation that succeeds gives each numeric constant and parameter
  one row, after those its value refers to, with the value that its expression has over the whole table,
  and records the values of dependent parameters.
Main exports: Model.DrawnFrom, Model.Solved, Model.definitions_eq_ok_iff, Model.Evaluates,
  Model.solved_of_calculate
-/
import FlatDae.Proofs.DefinitionTables
import FlatDae.Proofs.RunInvariants

namespace FlatDae

open FlatDae.Expr (Graph)

/-- The definition of a variable, where it has one. -/
def Variable.defined? (var : Variable) (v : VarId) : Option Definition :=
  if var.isTabled then
    var.value?.map fun value =>
      { target := v, name := var.name, symbol := var.symbol, value
        dependent := var.isDependentParameter }
  else none

/-- A variable that has no value expression has no definition only if it needs one. -/
theorem Variable.definition?_eq_ok_iff (var : Variable) (v : VarId) (found : Option Definition) :
    var.definition? v = .ok found ↔
      (var.isTabled = true → var.value?.isSome = true) ∧ found = var.defined? v := by
  unfold definition? defined?
  by_cases htabled : var.isTabled
  · simp only [htabled, Bool.not_true, Bool.false_eq_true, if_false, if_true, forall_const]
    cases var.value? with
    | none => simp
    | some value =>
        simp only [Option.isSome_some, Option.map_some, true_and, Except.ok.injEq]
        exact eq_comm
  · simp only [htabled, Bool.not_false, if_true, if_false, Bool.false_eq_true, false_implies, true_and,
      Except.ok.injEq]
    exact eq_comm

/-- What a definition has from its variable. -/
theorem Variable.defined?_eq_some {var : Variable} {v : VarId} {d : Definition}
    (h : var.defined? v = some d) :
    var.isTabled = true ∧ var.value? = some d.value ∧ d.target = v ∧ d.symbol = var.symbol ∧
      d.dependent = var.isDependentParameter := by
  unfold defined? at h
  by_cases htabled : var.isTabled
  · rw [if_pos htabled] at h
    obtain ⟨value, hvalue, rfl⟩ := Option.map_eq_some_iff.1 h
    exact ⟨htabled, hvalue, rfl, rfl, rfl⟩
  · rw [if_neg htabled] at h
    cases h

namespace Model

/-- The registered variables go by symbols of the graph, and their values are nodes of it. -/
structure DrawnFrom (g : Graph) (m : Model) : Prop where
  symbols : ∀ v ∈ m.registered, (m.store.get v).symbol ∈ g ∧ (m.store.get v).symbol.isSymbol = true
  values : ∀ v ∈ m.registered, ∀ e, (m.store.get v).value? = some e → e ∈ g

/-! ### Definitions -/

/-- The definition of a variable of the model, where it has one. -/
def defined? (m : Model) (v : VarId) : Option Definition := (m.store.get v).defined? v

/-- The definitions of a model, if all that are needed are there. -/
theorem definitions_eq_ok_iff {m : Model} {ds : Array Definition} :
    m.definitions = .ok ds ↔
      (∀ v ∈ m.registered, (m.store.get v).isTabled = true → (m.store.get v).value?.isSome = true) ∧
      ds.toList = m.registered.toList.filterMap m.defined? := by
  have hmap {found : List (Option Definition)} :
      m.registered.toList.mapM m.definition? = .ok found ↔
        (∀ v ∈ m.registered, (m.store.get v).isTabled = true → (m.store.get v).value?.isSome = true) ∧
        found = m.registered.toList.map m.defined? := by
    have hone (v : VarId) (found : Option Definition) : m.definition? v = .ok found ↔
        ((m.store.get v).isTabled = true → (m.store.get v).value?.isSome = true) ∧
        found = m.defined? v := (m.store.get v).definition?_eq_ok_iff v found
    rw [mapM_eq_ok_iff_map fun v _ => hone v]
    simp only [Array.mem_toList_iff]
  constructor
  · intro h
    cases hfound : m.registered.toList.mapM m.definition? with
    | error error =>
        simp only [definitions, hfound] at h
        cases h
    | ok found =>
        simp only [definitions, hfound] at h
        obtain ⟨hall, rfl⟩ := hmap.1 hfound
        refine ⟨hall, ?_⟩
        rw [← Except.ok.inj h]
        simp [List.filterMap_map]
  · rintro ⟨hall, hds⟩
    simp only [definitions, hmap.2 ⟨hall, rfl⟩]
    refine congrArg Except.ok (Array.toList_inj.1 ?_)
    rw [hds]
    simp [List.filterMap_map]

/-- A definition that is needed and not there is one of a numeric constant or parameter. -/
theorem definition?_eq_error {m : Model} {error : ModelError} {v : VarId}
    (h : m.definition? v = .error error) :
    (m.store.get v).isTabled = true ∧ (m.store.get v).value? = none ∧
      error = .missingValue (m.store.get v).name := by
  unfold definition? Variable.definition? at h
  by_cases htabled : (m.store.get v).isTabled
  · simp only [htabled, Bool.not_true, Bool.false_eq_true, if_false] at h
    cases hvalue : (m.store.get v).value? with
    | none =>
        rw [hvalue] at h
        exact ⟨htabled, rfl, (Except.error.inj h).symm⟩
    | some value =>
        rw [hvalue] at h
        cases h
  · simp only [htabled, Bool.not_false, if_true] at h
    cases h

/-- If there are no definitions then a numeric constant or parameter has nothing that gives its value. -/
theorem definitions_eq_error {m : Model} {error : ModelError} (h : m.definitions = .error error) :
    ∃ v ∈ m.registered, (m.store.get v).isTabled = true ∧ (m.store.get v).value? = none ∧
      error = .missingValue (m.store.get v).name := by
  cases hfound : m.registered.toList.mapM m.definition? with
  | ok found =>
      rw [definitions, hfound] at h
      cases h
  | error error' =>
      rw [definitions, hfound] at h
      obtain rfl := Except.error.inj h
      obtain ⟨v, hv, hmissing⟩ := exists_of_mapM_eq_error hfound
      exact ⟨v, Array.mem_toList_iff.1 hv, definition?_eq_error hmissing⟩

/-- No two definitions of a model are of one variable. -/
theorem nodup_targets_of_definitions {m : Model} (happart : m.RegisteredApart) {ds : Array Definition}
    (hds : m.definitions = .ok ds) : (ds.toList.map Definition.target).Nodup := by
  rw [(definitions_eq_ok_iff.1 hds).2, List.Nodup, List.pairwise_map, List.pairwise_filterMap]
  refine (happart.names.of_map _).imp ?_
  intro v w hne d hd d' hd'
  obtain ⟨-, -, htarget, -⟩ := Variable.defined?_eq_some hd
  obtain ⟨-, -, htarget', -⟩ := Variable.defined?_eq_some hd'
  rwa [htarget, htarget']

section Order

variable {m : Model} {ds : Array Definition} {order : List Definition}

/-- What is put in order are definitions of registered variables. -/
theorem defined_of_mem_order (hds : m.definitions = .ok ds) (horder : definitionOrder ds = .ok order)
    {d : Definition} (hd : d ∈ order) : d.target ∈ m.registered ∧ m.defined? d.target = some d := by
  have hmem : d ∈ ds.toList := (definitionOrder_perm horder).mem_iff.1 hd
  rw [(definitions_eq_ok_iff.1 hds).2] at hmem
  obtain ⟨v, hv, hdefined⟩ := List.mem_filterMap.1 hmem
  obtain ⟨-, -, htarget, -⟩ := Variable.defined?_eq_some hdefined
  rw [htarget]
  exact ⟨Array.mem_toList_iff.1 hv, hdefined⟩

/-- They are definitions of different variables. -/
theorem nodup_targets_of_order (happart : m.RegisteredApart) (hds : m.definitions = .ok ds)
    (horder : definitionOrder ds = .ok order) : (order.map Definition.target).Nodup :=
  ((definitionOrder_perm horder).map Definition.target).nodup_iff.2
    (nodup_targets_of_definitions happart hds)

end Order

/-- The definitions of a model are drawn from the graph that its variables are drawn from. -/
theorem DrawnFrom.definitions {g : Graph} {m : Model} (h : m.DrawnFrom g) (happart : m.RegisteredApart)
    {ds : Array Definition} (hds : m.definitions = .ok ds) : Definition.DrawnFrom g ds.toList := by
  obtain ⟨-, hlist⟩ := definitions_eq_ok_iff.1 hds
  have hfound : ∀ d ∈ ds.toList, ∃ v ∈ m.registered, d.symbol = (m.store.get v).symbol ∧
      (m.store.get v).value? = some d.value := by
    intro d hd
    rw [hlist] at hd
    obtain ⟨v, hv, hdefined⟩ := List.mem_filterMap.1 hd
    obtain ⟨-, hvalue, -, hsymbol, -⟩ := Variable.defined?_eq_some hdefined
    exact ⟨v, Array.mem_toList_iff.1 hv, hsymbol, hvalue⟩
  refine ⟨?_, ?_, ?_⟩
  · intro d hd
    obtain ⟨v, hv, hsymbol, -⟩ := hfound d hd
    rw [hsymbol]
    exact h.symbols v hv
  · intro d hd
    obtain ⟨v, hv, -, hvalue⟩ := hfound d hd
    exact h.values v hv d.value hvalue
  · -- different names are names of different symbols, which have different identities
    rw [hlist, List.Nodup, List.pairwise_map, List.pairwise_filterMap]
    refine (List.pairwise_map.1 happart.names).imp_of_mem ?_
    intro v w hv hw hname d hd d' hd' hid
    rw [Array.mem_toList_iff] at hv hw
    obtain ⟨-, -, -, hsymbol, -⟩ := Variable.defined?_eq_some hd
    obtain ⟨-, -, -, hsymbol', -⟩ := Variable.defined?_eq_some hd'
    rw [hsymbol, hsymbol'] at hid
    have hsame := Graph.eq_of_id_eq (h.symbols v hv).1 (h.symbols w hw).1 hid
    exact hname (by rw [(m.store.get v).name_eq, (m.store.get w).name_eq, hsame])

/-- The table of the model gives every numeric constant and parameter its value. -/
structure Solved (m : Model) : Prop where
  /-- There is exactly one row for each registered numeric constant or parameter and no other. -/
  rows : m.parameters.nodes.Perm
    ((m.registered.toList.filter fun v => (m.store.get v).isTabled).map fun v => (m.store.get v).symbol)
  distinct : m.parameters.Distinct
  /-- Each has the value that its expression has over the whole table. -/
  solved : ∀ v ∈ m.registered, (m.store.get v).isTabled = true → ∃ e value,
    (m.store.get v).value? = some e ∧ m.parameters.first? (m.store.get v).symbol = some value ∧
    (m.environment m.parameters).evaluate e = .ok value
  /-- Each comes after those its value refers to. -/
  sorted : ∀ v ∈ m.registered, (m.store.get v).isTabled = true → ∀ e, (m.store.get v).value? = some e →
    ∀ w ∈ m.registered, (m.store.get w).isTabled = true → (m.store.get w).symbol ∈ e.symbols →
    ∃ before after, m.parameters.nodes = before ++ (m.store.get v).symbol :: after ∧
      (m.store.get w).symbol ∈ before
  /-- The value of a dependent parameter is recorded in it. -/
  recorded : ∀ v ∈ m.registered, (m.store.get v).isTabled = true →
    (m.store.get v).isDependentParameter = true → ∃ id value,
      m.parameters.first? (m.store.get v).symbol = some value ∧
      (m.store.get v).attributes[Variable.evaluatedBindingAttribute]? =
        some (.expr (.constant id value))

/-! ### Recorded values -/

/-- Recording a value changes no variable but the dependent parameter that it is for. -/
theorem recordValue_get_same (m : Model) {found : Definition × Float} {w : VarId}
    (h : found.1.target = w → found.1.dependent = false) :
    (m.recordValue found).store.get w = m.store.get w := by
  unfold recordValue
  split
  · rename_i hdependent
    refine Variables.get_modify_of_ne m.store (fun heq => ?_) _
    rw [h heq] at hdependent
    cases hdependent
  · rfl

theorem recordValues_get_same (found : List (Definition × Float)) (m : Model) {w : VarId}
    (h : ∀ f ∈ found, f.1.target = w → f.1.dependent = false) :
    (m.recordValues found).store.get w = m.store.get w := by
  induction found generalizing m with
  | nil => rfl
  | cons f found ih =>
      rw [recordValues, List.foldl_cons, ← recordValues, ih _ fun f' hf' => h f' (List.mem_cons_of_mem _ hf'),
        recordValue_get_same m (h f List.mem_cons_self)]

/-- The value found for a dependent parameter is recorded in it as a new constant. -/
theorem recordValue_get (m : Model) {found : Definition × Float} (hdependent : found.1.dependent = true)
    (hexist : found.1.target.index < m.store.cells.size) :
    ∃ id, (m.recordValue found).store.get found.1.target =
      (m.store.get found.1.target).withAttribute Variable.evaluatedBindingAttribute
        (.expr (.constant id found.2)) := by
  refine ⟨m.supply.next, ?_⟩
  unfold recordValue
  rw [if_pos hdependent]
  change (m.store.modify found.1.target _).get found.1.target = _
  rw [Variables.get_modify, if_pos ⟨rfl, hexist⟩]

/-- Of values found for different variables each is recorded and stays. -/
theorem recordValues_get (found : List (Definition × Float)) (m : Model)
    (hdistinct : (found.map fun f => f.1.target).Nodup) {f : Definition × Float} (hf : f ∈ found)
    (hdependent : f.1.dependent = true) (hexist : f.1.target.index < m.store.cells.size) :
    ∃ id, (m.recordValues found).store.get f.1.target =
      (m.store.get f.1.target).withAttribute Variable.evaluatedBindingAttribute
        (.expr (.constant id f.2)) := by
  induction found generalizing m with
  | nil => cases hf
  | cons first found ih =>
      rw [List.map_cons, List.nodup_cons] at hdistinct
      rw [recordValues, List.foldl_cons, ← recordValues]
      rcases List.mem_cons.1 hf with rfl | hlater
      · rw [recordValues_get_same found _ fun f' hf' heq =>
          absurd (List.mem_map.2 ⟨f', hf', heq⟩) hdistinct.1]
        exact recordValue_get m hdependent hexist
      · have hother : first.1.target ≠ f.1.target := fun heq =>
          hdistinct.1 (List.mem_map.2 ⟨f, hlater, heq.symm⟩)
        rw [← recordValue_get_same m fun heq => absurd heq hother]
        exact ih (m.recordValue first) hdistinct.2 hlater
          (by rw [(Updates.recordValue m first).size]; exact hexist)

/-! ### Calculations that succeed -/

/-- The rows of definitions are those of the variables that have one. -/
theorem map_symbol_defined? (m : Model) (vs : List VarId)
    (h : ∀ v ∈ vs, (m.store.get v).isTabled = true → (m.store.get v).value?.isSome = true) :
    (vs.filterMap m.defined?).map Definition.symbol =
      (vs.filter fun v => (m.store.get v).isTabled).map fun v => (m.store.get v).symbol := by
  induction vs with
  | nil => rfl
  | cons v vs ih =>
      have hrest := ih fun w hw => h w (List.mem_cons_of_mem _ hw)
      by_cases htabled : (m.store.get v).isTabled
      · obtain ⟨e, he⟩ := Option.isSome_iff_exists.1 (h v List.mem_cons_self htabled)
        have hdefined : ∃ d, m.defined? v = some d ∧ d.symbol = (m.store.get v).symbol := by
          unfold defined? Variable.defined?
          rw [if_pos htabled, he]
          exact ⟨_, rfl, rfl⟩
        obtain ⟨d, hd, hsymbol⟩ := hdefined
        rw [List.filterMap_cons_some hd, List.filter_cons, if_pos htabled, List.map_cons, List.map_cons,
          hsymbol, hrest]
      · have hdefined : m.defined? v = none := by
          unfold defined? Variable.defined?
          rw [if_neg htabled]
        rw [List.filterMap_cons_none hdefined, List.filter_cons, if_neg htabled, hrest]

/-- A calculation that succeeds evaluates definitions in order and records what it finds. -/
theorem calculate_eq_ok {m m' : Model} (hrun : calculate.run m = .ok () m') :
    ∃ definitions table, ∃ found : List (Definition × Float), m.definitions = .ok definitions ∧
      definitionOrder definitions = .ok (found.map Prod.fst) ∧
      (found.map Prod.fst).foldlM m.extendTable {} = .ok table ∧
      table.rows = (found.map fun f => (f.1.symbol, f.2)).toArray ∧
      m' = { m.withoutValues.recordValues found with parameters := table, parametersValid := true } := by
  have houtcome := calculate_run m
  cases hsolve : m.solve with
  | error error =>
      rw [hsolve] at houtcome
      rw [houtcome] at hrun
      cases hrun
  | ok table =>
      rw [hsolve] at houtcome
      obtain ⟨⟨definitions, hdefinitions, horder⟩, hrows, hcalculated⟩ := houtcome
      refine ⟨definitions, table, m.foundValues, hdefinitions, horder, ?_, hrows, ?_⟩
      · simp only [solve, hdefinitions, bind, Except.bind, horder] at hsolve
        exact hsolve
      · rw [hcalculated] at hrun
        exact (EStateM.Result.ok.inj hrun).2.symm

/-- All definitions of a model in an order in which they can be evaluated, with the values found for
    them and the table of these. -/
structure Evaluates (g : Graph) (m : Model) (found : List (Definition × Float)) (table : ParameterTable) :
    Prop where
  complete : ∀ v ∈ m.registered, (m.store.get v).isTabled = true →
    (m.store.get v).value?.isSome = true
  all : (found.map Prod.fst).Perm (m.registered.toList.filterMap m.defined?)
  drawn : Definition.DrawnFrom g (found.map Prod.fst)
  ordered : Ordered (found.map Prod.fst)
  rows : table.rows = (found.map fun f => (f.1.symbol, f.2)).toArray
  nodes : table.nodes = (found.map Prod.fst).map Definition.symbol
  solves : Solves (m.functions.call []) (found.map Prod.fst) table

/-- This is what a calculation that succeeds does. -/
theorem evaluates_of_calculate {g : Graph} {m m' : Model} (happart : m.RegisteredApart)
    (hdrawn : m.DrawnFrom g) (hrun : calculate.run m = .ok () m') :
    ∃ found table, Evaluates g m found table ∧ m' =
      { m.withoutValues.recordValues found with parameters := table, parametersValid := true } := by
  obtain ⟨ds, table, found, hds, horder, hfold, hrows, hm'⟩ := calculate_eq_ok hrun
  obtain ⟨hcomplete, hlist⟩ := definitions_eq_ok_iff.1 hds
  have hdsDrawn := hdrawn.definitions happart hds
  have hspec := definitionOrder_spec hdsDrawn
  rw [horder] at hspec
  obtain ⟨hperm, hordered⟩ := hspec
  have hfoundDrawn := hdsDrawn.of_perm hperm
  obtain ⟨hnodes, hsolves⟩ := solves_of_foldlM hfoundDrawn hordered hfold
  exact ⟨found, table,
    ⟨hcomplete, hlist ▸ hperm, hfoundDrawn, hordered, hrows, hnodes, hsolves⟩, hm'⟩

namespace Evaluates

variable {g : Graph} {m : Model} {found : List (Definition × Float)} {table : ParameterTable}
  (h : Evaluates g m found table)
include h

theorem distinct : table.Distinct :=
  (keyedBySymbols_of_nodes h.drawn (by rw [h.nodes])).distinct

/-- The rows are those of the numeric constants and parameters. -/
theorem nodes_perm : table.nodes.Perm
    ((m.registered.toList.filter fun v => (m.store.get v).isTabled).map fun v =>
      (m.store.get v).symbol) := by
  rw [h.nodes, ← map_symbol_defined? m _ fun v hv => h.complete v (Array.mem_toList_iff.1 hv)]
  exact h.all.map _

/-- Every numeric constant or parameter has its definition, with a value. -/
theorem exists_found {v : VarId} (hv : v ∈ m.registered) (htabled : (m.store.get v).isTabled = true) :
    ∃ f ∈ found, (m.store.get v).value? = some f.1.value ∧ f.1.target = v ∧
      f.1.symbol = (m.store.get v).symbol ∧
      f.1.dependent = (m.store.get v).isDependentParameter := by
  obtain ⟨e, he⟩ := Option.isSome_iff_exists.1 (h.complete v hv htabled)
  have hdefined : ∃ d, m.defined? v = some d := by
    unfold defined? Variable.defined?
    rw [if_pos htabled, he]
    exact ⟨_, rfl⟩
  obtain ⟨d, hd⟩ := hdefined
  have hmem : d ∈ m.registered.toList.filterMap m.defined? :=
    List.mem_filterMap.2 ⟨v, Array.mem_toList_iff.2 hv, hd⟩
  obtain ⟨f, hf, rfl⟩ := List.mem_map.1 (h.all.mem_iff.2 hmem)
  exact ⟨f, hf, (Variable.defined?_eq_some hd).2⟩

/-- No two definitions are of one variable. -/
theorem nodup_targets : (found.map fun f => f.1.target).Nodup := by
  have hids : (found.map fun f => f.1.target).map (fun v => (m.store.get v).symbol.id) =
      (found.map Prod.fst).map fun d => d.symbol.id := by
    rw [List.map_map, List.map_map]
    apply List.map_congr_left
    intro f hf
    obtain ⟨v, -, hfound⟩ := List.mem_filterMap.1 (h.all.mem_iff.1 (List.mem_map.2 ⟨f, hf, rfl⟩))
    obtain ⟨-, -, htarget, hsymbol, -⟩ := Variable.defined?_eq_some hfound
    simp only [Function.comp_apply, htarget, hsymbol]
  exact .of_map _ (hids ▸ h.drawn.distinct)

/-- A definition comes after those that its value refers to. -/
theorem sorted {f f' : Definition × Float} (hf : f ∈ found) (hf' : f' ∈ found)
    (hmention : f'.1.symbol ∈ f.1.value.symbols) :
    ∃ before after, table.nodes = before ++ f.1.symbol :: after ∧ f'.1.symbol ∈ before := by
  obtain ⟨before, after, hsplit⟩ := List.append_of_mem (List.mem_map_of_mem hf)
  refine ⟨before.map Definition.symbol, after.map Definition.symbol, ?_, ?_⟩
  · rw [h.nodes, hsplit, List.map_append, List.map_cons]
  · have hmem := h.ordered before f.1 ⟨after, by rw [hsplit]; simp⟩ f'.1 (List.mem_map_of_mem hf') hmention
    exact List.mem_map_of_mem hmem

/-- The table has the value that was found. -/
theorem first?_symbol {f : Definition × Float} (hf : f ∈ found) :
    table.first? f.1.symbol = some f.2 := by
  apply ParameterTable.first?_of_mem h.distinct
  rw [h.rows]
  exact List.mem_map.2 ⟨f, hf, rfl⟩

end Evaluates

/-- A calculation that succeeds solves the model. -/
theorem solved_of_calculate {g : Graph} {m m' : Model} (happart : m.RegisteredApart)
    (hdrawn : m.DrawnFrom g) (hrun : calculate.run m = .ok () m') : m'.Solved := by
  obtain ⟨found, table, h, rfl⟩ := evaluates_of_calculate happart hdrawn hrun
  have hupdates : Updates m.withoutValues (m.withoutValues.recordValues found) := .recordValues found _
  have hcell (v : VarId) :
      (m.store.get v).Updated ((m.withoutValues.recordValues found).store.get v) := hupdates.cells v
  have hregistered : (m.withoutValues.recordValues found).registered = m.registered := by
    rw [hupdates.rest]
    rfl
  have henvironment :
      (m.withoutValues.recordValues found).environment table = m.environment table :=
    congrFun (recordValues_environment found m.withoutValues) table
  constructor
  · change table.nodes.Perm _
    rw [hregistered]
    simp only [(hcell _).isTabled_eq, (hcell _).symbol]
    exact h.nodes_perm
  · exact h.distinct
  · intro v hv htabled
    rw [hregistered] at hv
    rw [(hcell v).isTabled_eq] at htabled
    obtain ⟨f, hf, hvalue, -, hsymbol, -⟩ := h.exists_found hv htabled
    obtain ⟨value, hfirst, hevaluate⟩ := h.solves.solved f.1 (List.mem_map_of_mem hf)
    refine ⟨f.1.value, value, by rw [(hcell v).value?_eq, hvalue], ?_, ?_⟩
    · rw [(hcell v).symbol, ← hsymbol]
      exact hfirst
    · change ((m.withoutValues.recordValues found).environment table).evaluate f.1.value = _
      rw [henvironment]
      exact hevaluate
  · intro v hv htabled e he w hw htabled' hmention
    rw [hregistered] at hv hw
    rw [(hcell _).isTabled_eq] at htabled htabled'
    obtain ⟨f, hf, hvalue, -, hsymbol, -⟩ := h.exists_found hv htabled
    obtain ⟨f', hf', -, -, hsymbol', -⟩ := h.exists_found hw htabled'
    rw [(hcell v).value?_eq, hvalue] at he
    rw [(hcell w).symbol, ← hsymbol', ← Option.some.inj he] at hmention
    rw [(hcell v).symbol, (hcell w).symbol, ← hsymbol, ← hsymbol']
    exact h.sorted hf hf' hmention
  · intro v hv htabled hdependent
    rw [hregistered] at hv
    rw [(hcell v).isTabled_eq] at htabled
    rw [(hcell v).isDependentParameter_eq] at hdependent
    obtain ⟨f, hf, -, rfl, hsymbol, hdependent'⟩ := h.exists_found hv htabled
    obtain ⟨id, hrecorded⟩ := recordValues_get found m.withoutValues h.nodup_targets hf
      (hdependent'.trans hdependent) (happart.exist _ hv)
    refine ⟨id, f.2, ?_, ?_⟩
    · rw [(hcell _).symbol, ← hsymbol]
      exact h.first?_symbol hf
    · simp only [hrecorded, Variable.withAttribute, Std.TreeMap.getElem?_insert_self]

end Model

end FlatDae
