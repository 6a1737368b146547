/-
Module: FlatDae.Proofs.EvaluatorAgreement
Purpose: The evaluator of expression graphs gives what plain recursion over the unfolded tree gives.
  Reducing an expression whose known nodes are replaced by constants is the same as recursion that
  stops at known nodes, down to the texts of errors; through function calls the evaluators agree
  because they agree on the outputs of every function that can be entered.
Main exports: ReplacesKnown, treeValue_replaced, Environment.substituteAndReduce?_eq,
  Environment.evaluate?_eq, FunctionTable.callWith_congr, evaluate_eq_treeValue
-/
import FlatDae.Proofs.FallibleLists
import FlatDae.Proofs.TreeEvaluation

namespace FlatDae

open FlatDae.Expr (Alike Graph Replaced Replacements Piece)

/-- The nodes that are replaced are the known ones, each by a constant of its value. -/
def ReplacesKnown (r : Replacements) (known : Expr → Option Float) : Prop :=
  ∀ e : Expr, match r[e.id]? with
    | none => known e = none
    | some t => ∃ id value, t = .constant id value ∧ known e = some value

section Trees

variable {r : Replacements} {known : Expr → Option Float} (hr : ReplacesKnown r known)
include hr

/-- What a tree has become: a constant, if its node is known, and otherwise a node of the same kind over
    what its children have become. -/
theorem Replaced.cases_known {e t : Expr} (h : Replaced r e t) :
    (∃ id value, t = .constant id value ∧ known e = some value) ∨
    (known e = none ∧ Alike e t ∧
      List.Forall₂ (Replaced r) e.children t.children) := by
  have he := hr e
  cases h with
  | target hknown =>
      rw [hknown] at he
      exact Or.inl he
  | rebuilt hunknown halike hlength hchildren =>
      rw [hunknown] at he
      refine Or.inr ⟨he, halike, List.forall₂_iff_zip.2 ⟨hlength.symm, ?_⟩⟩
      intro a b hab
      exact hchildren (a, b) hab

/-! ### Texts -/

omit hr in
/-- A piece of the text of a tree beside the piece of what the tree has become. -/
inductive PieceReplaced (r : Replacements) : Piece → Piece → Prop where
  | text (s : String) : PieceReplaced r (.text s) (.text s)
  | expr {e t : Expr} (h : Replaced r e t) : PieceReplaced r (.expr e) (.expr t)

omit hr in
theorem forall₂_commaSeparated {es ts : List Expr} (h : List.Forall₂ (Replaced r) es ts) :
    List.Forall₂ (PieceReplaced r) (Expr.commaSeparated es) (Expr.commaSeparated ts) := by
  induction h with
  | nil => exact .nil
  | cons hhead htail ih =>
      cases htail with
      | nil => exact .cons (.expr hhead) .nil
      | cons => exact .cons (.expr hhead) (.cons (.text ",") ih)

omit hr in
/-- Nodes of one kind print alike around their children. -/
theorem forall₂_pieces {e t : Expr} (halike : Alike e t)
    (hchildren : List.Forall₂ (Replaced r) e.children t.children) :
    List.Forall₂ (PieceReplaced r) e.pieces t.pieces := by
  cases halike with
  | constant => exact .cons (.text _) .nil
  | symbol => exact .cons (.text _) .nil
  | unary =>
      obtain _ | ⟨h, _⟩ := hchildren
      exact .cons (.text _) (.cons (.expr h) (.cons (.text _) .nil))
  | binary =>
      obtain _ | ⟨h, _ | ⟨h', _⟩⟩ := hchildren
      exact .cons (.text _) (.cons (.expr h) (.cons (.text _) (.cons (.expr h') (.cons (.text _) .nil))))
  | der =>
      obtain _ | ⟨h, _⟩ := hchildren
      exact .cons (.text _) (.cons (.expr h) (.cons (.text _) .nil))
  | call =>
      refine .cons (.text _) (.cons (.text _) (List.rel_append (forall₂_commaSeparated hchildren) ?_))
      exact .cons (.text _) (.cons (.text _) (.cons (.text _) .nil))
  | vertcat =>
      exact .cons (.text _)
        (List.rel_append (forall₂_commaSeparated hchildren) (.cons (.text _) .nil))

/-- Writing a tree with its known values in it is writing what the tree has become. -/
theorem writePieces_replaced {ps qs : List Piece} (h : List.Forall₂ (PieceReplaced r) ps qs)
    (written : String) :
    Expr.writePieces known ps written = Expr.writePieces (fun _ => none) qs written := by
  fun_induction Expr.writePieces known ps written generalizing qs with
  | case1 written =>
      cases h
      rw [Expr.writePieces.eq_1]
  | case2 s rest written ih =>
      cases h with
      | cons hhead htail =>
          cases hhead
          rw [Expr.writePieces.eq_2, ih htail]
  | case3 e rest written value hvalue ih =>
      cases h with
      | cons hhead htail =>
          cases hhead with
          | expr hexpr =>
              rcases Replaced.cases_known hr hexpr with ⟨id, value', rfl, hvalue'⟩ | ⟨hnone, _⟩
              · rw [hvalue] at hvalue'
                rw [ih htail, Option.some.inj hvalue', Expr.writePieces.eq_3]
                simp only [Expr.pieces, List.cons_append, List.nil_append]
                rw [Expr.writePieces.eq_2]
              · rw [hvalue] at hnone
                cases hnone
  | case4 e rest written hvalue ih =>
      cases h with
      | cons hhead htail =>
          cases hhead with
          | expr hexpr =>
              rcases Replaced.cases_known hr hexpr with ⟨_, _, _, hsome⟩ | ⟨_, halike, hchildren⟩
              · rw [hvalue] at hsome
                cases hsome
              · rw [Expr.writePieces.eq_3]
                exact ih (List.rel_append (forall₂_pieces halike hchildren) htail)

/-- A tree reads with its known values in it as what it has become reads. -/
theorem printWith_replaced {e t : Expr} (h : Replaced r e t) : e.printWith known = t.print :=
  writePieces_replaced hr (.cons (.expr h) .nil) ""

/-! ### Values -/

omit hr in
/-- Trees that each have one value with what they have become have one list of values with it. -/
theorem treeValues_replaced {call : CallSemantics} {whole : Expr} {es ts : List Expr}
    (h : List.Forall₂ (fun e t => treeValue known call whole e =
      treeValue (fun _ => none) call whole t) es ts) :
    treeValues known call whole es = treeValues (fun _ => none) call whole ts := by
  induction h with
  | nil => rfl
  | cons hhead _ ih => simp only [treeValues, hhead, ih]

/-- Recursion that stops at known nodes gives what recursion over the replaced tree gives. -/
theorem treeValue_replaced {call : CallSemantics} {whole : Expr} (e : Expr) {t : Expr}
    (h : Replaced r e t) :
    treeValue known call whole e = treeValue (fun _ => none) call whole t := by
  induction e using Expr.children_induction generalizing t with
  | step e ih =>
      have hprint := printWith_replaced hr h
      rcases Replaced.cases_known hr h with ⟨id, value, rfl, hvalue⟩ | ⟨hnone, halike, hchildren⟩
      · rw [treeValue_of_known hvalue, treeValue.eq_def]
      have hvalues : List.Forall₂ (fun e t => treeValue known call whole e =
          treeValue (fun _ => none) call whole t) e.children t.children := by
        rw [List.forall₂_iff_zip] at hchildren ⊢
        exact ⟨hchildren.1, fun hab => ih _ (List.of_mem_zip hab).1 (hchildren.2 hab)⟩
      rw [treeValue.eq_def known, treeValue.eq_def (fun _ => none), hnone]
      cases halike with
      | constant => rfl
      | symbol => rfl
      | unary =>
          obtain _ | ⟨h, _⟩ := hvalues
          simp only [h]
      | binary =>
          obtain _ | ⟨h, _ | ⟨h', _⟩⟩ := hvalues
          simp only [h, h']
      | der => simp only [hprint]; rfl
      | call i j function cs ds output =>
          have hargs : treeValues known call whole cs = treeValues (fun _ => none) call whole ds :=
            treeValues_replaced hvalues
          simp only [hargs]
      | vertcat i j cs ds =>
          cases hvalues with
          | nil => simp only [hprint]; rfl
          | cons hrow hrows =>
              cases hrows with
              | nil => exact hrow
              | cons => simp only [hprint]; rfl

end Trees

/-! ### The constants of a table -/

/-- New constants are nodes of a larger graph, one for every value in order. -/
theorem mapM_constant_run (values : List Float) (s : Graph) (supply : Supply)
    (hbelow : s.Below supply) :
    ∃ cs supply' s', (values.mapM Fresh.constant).run supply = (cs, supply') ∧
      (∀ n ∈ s, n ∈ (s' : Graph)) ∧ s'.Below supply' ∧
      List.Forall₂ (fun v c => c ∈ s' ∧ ∃ id, c = Expr.constant id v) values cs := by
  induction values generalizing s supply with
  | nil => exact ⟨[], supply, s, rfl, fun _ h => h, hbelow, .nil⟩
  | cons v values ih =>
      have hnew : ∀ m ∈ s, m.id ≠ (Expr.constant supply.next v).id := fun m hm =>
        Nat.ne_of_lt (hbelow m hm)
      obtain ⟨cs, supply', s', hrun, hkeep, hbelow', hcs⟩ :=
        ih (s.insert (.constant supply.next v) (by simp [Expr.children]) hnew)
          { next := supply.next + 1 } (by
            intro n hn
            rcases hn with rfl | hold
            · exact Nat.lt_succ_self _
            · exact Nat.lt_succ_of_lt (hbelow n hold))
      refine ⟨.constant supply.next v :: cs, supply', s', ?_, ?_, hbelow', ?_⟩
      · have hfirst : (Fresh.constant v).run supply =
            (.constant supply.next v, { next := supply.next + 1 }) := rfl
        rw [List.mapM_cons, StateT.run_bind, hfirst]
        change (List.mapM Fresh.constant values >>= fun l =>
          pure (Expr.constant supply.next v :: l)).run { next := supply.next + 1 } = _
        rw [StateT.run_bind, hrun]
        rfl
      · exact fun n hn => hkeep n (Or.inr hn)
      · exact .cons ⟨hkeep _ (Or.inl rfl), _, rfl⟩ hcs

/-- Searching rows and searching their nodes beside what stands for their values finds the same. -/
theorem find?_standing (stands : Float → Expr → Prop) (id : NodeId) {rows : List (Expr × Float)}
    {pairs : List (Expr × Expr)}
    (h : List.Forall₂ (fun row p => p.1 = row.1 ∧ stands row.2 p.2) rows pairs) :
    match (pairs.find? fun p => p.1.id == id).map Prod.snd with
    | none => (rows.find? fun row => row.1.id == id).map Prod.snd = none
    | some t => ∃ value, stands value t ∧
        (rows.find? fun row => row.1.id == id).map Prod.snd = some value := by
  induction h with
  | nil => rfl
  | @cons row p rows pairs hhead _ ih =>
      obtain ⟨hnode, hstands⟩ := hhead
      rw [List.find?_cons, List.find?_cons, hnode]
      by_cases hid : row.1.id == id
      · simp only [hid, Option.map_some]
        exact ⟨row.2, hstands, rfl⟩
      · simpa only [hid] using ih

/-- The value in the last row of a node is the first that is found from the end. -/
theorem ParameterTable.last?_eq_find? (table : ParameterTable) (e : Expr) :
    table.last? e =
      (table.rows.toList.reverse.find? fun row => row.1.id == e.id).map Prod.snd := by
  simp [last?, Expr.same, ← Array.find?_toList]

/-- The nodes of a table are replaced by constants of the values that its last rows give them. -/
theorem replacesKnown_last? (table : ParameterTable) {cs : List Expr} {r : Replacements}
    (hcs : List.Forall₂ (fun v c => ∃ id, c = Expr.constant id v) table.values cs)
    (hr : Replacements.ofLists? table.nodes cs = some r) : ReplacesKnown r table.last? := by
  intro e
  rw [Expr.ofLists?_getElem? hr]
  clear hr
  have hpairs : List.Forall₂ (fun (row : Expr × Float) (p : Expr × Expr) =>
      p.1 = row.1 ∧ ∃ id, p.2 = Expr.constant id row.2) table.rows.toList (table.nodes.zip cs) := by
    rw [ParameterTable.nodes]
    rw [ParameterTable.values] at hcs
    generalize table.rows.toList = rows at hcs ⊢
    induction rows generalizing cs with
    | nil => exact .nil
    | cons row rows ih =>
        obtain _ | ⟨hhead, htail⟩ := hcs
        exact .cons ⟨rfl, hhead⟩ (ih htail)
  rw [table.last?_eq_find?]
  have hfound := find?_standing (fun value t => ∃ id, t = Expr.constant id value) e.id
    (List.rel_reverse hpairs)
  split at hfound
  · exact hfound
  · obtain ⟨value, ⟨id, hconstant⟩, hvalue⟩ := hfound
    exact ⟨id, value, hconstant, hvalue⟩

/-! ### The evaluator -/

/-- The nodes of an expression of a graph, with identities above them still to be given out. -/
theorem below_supplyAbove {g : Graph} {e : Expr} (he : e ∈ g) :
    (g.nodesOf e he).Below e.supplyAbove :=
  fun _ hn => Expr.lt_supplyAbove he hn

/-- The value of an expression by replacing and reducing, also where it is a node of the table itself. -/
def Environment.substituteAndReduce? (env : Environment) (e : Expr) :
    Option (Except ModelError Float) := do
  let (constants, supply) := (env.table.values.mapM Fresh.constant).run e.supplyAbove
  let replacements ← Replacements.ofLists? env.table.nodes constants
  let (substituted, _) ← e.substitute? replacements supply
  env.reduce? substituted e

/-- What is not a node of the table is evaluated by replacing and reducing. -/
theorem Environment.evaluate?_of_first?_eq_none {env : Environment} {e : Expr}
    (h : env.table.first? e = none) : env.evaluate? e = env.substituteAndReduce? e := by
  rw [evaluate?, h]
  rfl

/-- Replacing and reducing never misses a look-up and gives the value of recursion that stops at the nodes
    of the table, each with the value in its last row. -/
theorem Environment.substituteAndReduce?_eq {g : Graph} {e : Expr} (he : e ∈ g) (env : Environment) :
    env.substituteAndReduce? e = some (treeValue env.table.last? env.call e e) := by
  obtain ⟨cs, supply, s, hrun, hkeep, hbelow, hcs⟩ :=
    mapM_constant_run env.table.values _ _ (below_supplyAbove he)
  have hlength : env.table.nodes.length = cs.length := by
    rw [← hcs.length_eq]
    simp [ParameterTable.nodes, ParameterTable.values]
  obtain ⟨r, hr⟩ : ∃ r, Replacements.ofLists? env.table.nodes cs = some r := by
    rw [Replacements.ofLists?, if_pos (by simpa using hlength)]
    exact ⟨_, rfl⟩
  have hknown : ReplacesKnown r env.table.last? :=
    replacesKnown_last? env.table (hcs.imp fun _ _ h => h.2) hr
  obtain ⟨t, supply', s', hsubstitute, -, ht, hreplaced⟩ :=
    Expr.substitute?_spec (r := r) (g := g.nodesOf e he) (.self e) hkeep
      (fun n _ t ht => by
        obtain ⟨i, hi, heq⟩ := List.mem_iff_getElem.1 (Expr.mem_targets hr ht)
        rw [← heq]
        exact (hcs.get (by rw [hcs.length_eq]; exact hi) hi).1)
      hbelow
  simp only [substituteAndReduce?, hrun, hr, hsubstitute, Option.bind_eq_bind, Option.bind_some]
  rw [reduce?_eq ht, Environment.reduced, treeValue_replaced hknown e hreplaced]

/-- Evaluating a node of a graph never misses a look-up and gives the value that recursion gives. -/
theorem Environment.evaluate?_eq {g : Graph} {e : Expr} (he : e ∈ g) (env : Environment) :
    env.evaluate? e = some (env.treeEvaluate e) := by
  cases hfirst : env.table.first? e with
  | some value => rw [evaluate?, treeEvaluate, hfirst]
  | none => rw [evaluate?_of_first?_eq_none hfirst, substituteAndReduce?_eq he, treeEvaluate, hfirst]

theorem Environment.evaluate_eq_treeEvaluate {g : Graph} {e : Expr} (he : e ∈ g) (env : Environment) :
    env.evaluate e = env.treeEvaluate e := by
  rw [evaluate, evaluate?_eq he, Option.getD_some]

/-- A node without children needs no graph around it. -/
theorem Environment.evaluate_leaf (env : Environment) {e : Expr} (h : e.children = []) :
    env.evaluate e = env.treeEvaluate e :=
  evaluate_eq_treeEvaluate (Graph.mem_leaf e h) env

/-! ### Different nodes in a table -/

namespace ParameterTable

/-- A table knows the nodes that it has rows of. -/
theorem isSome_first? (table : ParameterTable) (e : Expr) :
    (table.first? e).isSome = table.nodes.any (·.same e) := by
  simp [first?, nodes, List.any_map, Function.comp_def, Array.isSome_find?]

theorem isSome_last? (table : ParameterTable) (e : Expr) :
    (table.last? e).isSome = table.nodes.any (·.same e) := by
  simp [last?, nodes, List.any_map, Function.comp_def, Array.findRev?_eq_find?_reverse,
    Array.isSome_find?]

/-- No node has two rows. -/
def Distinct (table : ParameterTable) : Prop := (table.nodes.map Expr.id).Nodup

/-- Of rows with different nodes the first that fits is the last that fits. -/
theorem find?_reverse_of_nodup {rows : List (Expr × Float)} (h : (rows.map fun row => row.1.id).Nodup)
    (e : Expr) :
    rows.reverse.find? (fun row => row.1.same e) = rows.find? (fun row => row.1.same e) := by
  induction rows with
  | nil => rfl
  | cons row rows ih =>
      rw [List.map_cons, List.nodup_cons] at h
      rw [List.reverse_cons, List.find?_append, ih h.2]
      by_cases hsame : row.1.same e
      · have hnone : rows.find? (fun row => row.1.same e) = none := by
          rw [List.find?_eq_none]
          intro other hother hsame'
          apply h.1
          simp only [Expr.same, beq_iff_eq] at hsame hsame'
          exact List.mem_map.2 ⟨other, hother, by rw [hsame', hsame]⟩
        simp [hsame, hnone]
      · simp [hsame]

theorem last?_eq_first? {table : ParameterTable} (h : table.Distinct) :
    table.last? = table.first? := by
  funext e
  have hrows : (table.rows.toList.map fun row => row.1.id).Nodup := by
    simpa [Distinct, nodes, Function.comp_def] using h
  have hfind := find?_reverse_of_nodup hrows e
  simp only [last?, first?, Array.findRev?_eq_find?_reverse, ← Array.find?_toList,
    Array.toList_reverse, hfind]

end ParameterTable

/-- In a table of different nodes there is one value for a node, wherever it stands. -/
theorem Environment.treeEvaluate_of_distinct {env : Environment} (h : env.table.Distinct) (e : Expr) :
    env.treeEvaluate e = treeValue env.table.first? env.call e e := by
  rw [treeEvaluate]
  cases hfirst : env.table.first? e with
  | some value => rw [treeValue_of_known hfirst]
  | none => rw [ParameterTable.last?_eq_first? h]

/-! ### Function calls -/

namespace FunctionTable

/-- The outputs of all functions are nodes of the graph. -/
def DrawnFrom (table : FunctionTable) (g : Graph) : Prop :=
  ∀ (name : String) (f : ModelFunction), table[name]? = some f → ∀ output ∈ f.outputs, output ∈ g

/-- Evaluators that agree on the outputs of all functions give every call the same meaning. -/
theorem callWith_congr {evaluator evaluator' : Environment → Expr → Except ModelError Float}
    (table : FunctionTable)
    (h : ∀ (name : String) (f : ModelFunction), table[name]? = some f →
      ∀ output ∈ f.outputs, ∀ env, evaluator env output = evaluator' env output)
    (active : List String) :
    table.callWith evaluator active = table.callWith evaluator' active := by
  induction hsize : table.size using Nat.strongRecOn generalizing table active with
  | ind size ih =>
      funext name args output
      rw [callWith.eq_def, callWith.eq_def evaluator']
      by_cases hactive : active.contains name
      · rw [if_pos hactive, if_pos hactive]
      · rw [if_neg hactive, if_neg hactive]
        split
        · rfl
        · rename_i f hf
          have hinner := ih (table.erase name).size (hsize ▸ size_erase_lt hf) (table.erase name)
            (fun g f' hf' => h g f' (by
              rw [Std.TreeMap.getElem?_erase] at hf'
              split at hf'
              · cases hf'
              · exact hf'))
            (name :: active) rfl
          have happly : ∀ call, f.applyWith evaluator call args = f.applyWith evaluator' call args := by
            intro call
            unfold ModelFunction.applyWith
            split
            · rfl
            · exact mapM_congr_mem f.outputs fun o ho => h name f hf o ho _
          simp only [hinner, happly]

/-- A function that is not active is applied, with itself active and out of the table inside. -/
theorem callWith_of_found {evaluator : Environment → Expr → Except ModelError Float}
    {table : FunctionTable} {active : List String} {name : String} {f : ModelFunction}
    (hactive : active.contains name = false) (hfound : table[name]? = some f) (args : List Float)
    (output : Nat) :
    table.callWith evaluator active name args output =
      (f.applyWith evaluator (callWith evaluator (table.erase name) (name :: active)) args).bind
        fun outputs => match outputs[output]? with
          | some value => .ok value
          | none => .error (.functionFault name (.noOutput output)) := by
  rw [callWith.eq_def, hactive]
  split
  · contradiction
  · split
    · rename_i hnone
      rw [hfound] at hnone
      cases hnone
    · rename_i f' hf'
      obtain rfl : f = f' := Option.some.inj (hfound.symm.trans hf')
      simp only
      cases f.applyWith evaluator (callWith evaluator (table.erase name) (name :: active)) args <;> rfl

/-- Calls of functions whose outputs are nodes of a graph mean what recursion makes of them. -/
theorem call_eq_callWith_treeEvaluate {g : Graph} {table : FunctionTable} (h : table.DrawnFrom g)
    (active : List String) : table.call active = table.callWith Environment.treeEvaluate active := by
  apply callWith_congr
  intro name f hf output houtput env
  exact Environment.evaluate_eq_treeEvaluate (h name f hf output houtput) env

end FunctionTable

/-- The evaluator of a graph refines plain recursion over the unfolded tree: it never misses a look-up,
    it gives the recursive value or error whatever calls mean, and calls of functions of the graph mean
    what recursion makes of them in turn. -/
theorem evaluate_eq_treeValue (g : Graph) (functions : FunctionTable)
    (hfunctions : functions.DrawnFrom g) (table : ParameterTable) (hdistinct : table.Distinct)
    (e : Expr) (he : e ∈ g) :
    (∀ (env : Environment), ∀ n ∈ g, ∃ outcome, env.evaluate? n = some outcome) ∧
    (∀ call : CallSemantics,
      ({ table, call } : Environment).evaluate e = treeValue table.first? call e e) ∧
    (∀ active : List String,
      ({ table, call := functions.call active } : Environment).evaluate e =
        treeValue table.first? (functions.callWith Environment.treeEvaluate active) e e) := by
  have hcall : ∀ call : CallSemantics,
      ({ table, call } : Environment).evaluate e = treeValue table.first? call e e := by
    intro call
    rw [Environment.evaluate, Environment.evaluate?_eq he, Option.getD_some,
      Environment.treeEvaluate_of_distinct hdistinct]
  refine ⟨fun env n hn => ⟨_, Environment.evaluate?_eq hn env⟩, hcall, ?_⟩
  intro active
  rw [hcall, FunctionTable.call_eq_callWith_treeEvaluate hfunctions]

/-! ### A shared call -/

/-- The nodes `p`, `a`, `a * a`, `square(p)` and `square(p) + square(p)`; both operands of the sum are
    one node. -/
def squaresGraph : Graph where
  nodes := { n | n = .symbol 4 "p" ∨ n = .symbol 5 "a" ∨
    n = .binary 6 .mul (.symbol 5 "a") (.symbol 5 "a") ∨
    n = .call 7 "square" [.symbol 4 "p"] 0 ∨
    n = .binary 8 .add (.call 7 "square" [.symbol 4 "p"] 0) (.call 7 "square" [.symbol 4 "p"] 0) }
  closed := by
    rintro n (rfl | rfl | rfl | rfl | rfl) c hc <;> simp_all [Expr.children]
  unique := by
    rintro a (rfl | rfl | rfl | rfl | rfl) b (rfl | rfl | rfl | rfl | rfl) hid <;>
      simp_all [Expr.id]

/-- The function `square` over the input `a`. -/
def squareTable : FunctionTable :=
  (∅ : FunctionTable).insert "square"
    { name := "square"
      inputs := [.symbol 5 "a"]
      outputs := [.binary 6 .mul (.symbol 5 "a") (.symbol 5 "a")] }

theorem squareTable_drawnFrom : squareTable.DrawnFrom squaresGraph := by
  intro name f hf output houtput
  simp only [squareTable, Std.TreeMap.getElem?_insert] at hf
  split at hf
  · rw [← Option.some.inj hf, List.mem_singleton] at houtput
    rw [houtput]
    exact Or.inr (Or.inr (Or.inl rfl))
  · simp at hf

theorem squareTable_square : squareTable["square"]? =
    some { name := "square"
           inputs := [.symbol 5 "a"]
           outputs := [.binary 6 .mul (.symbol 5 "a") (.symbol 5 "a")] } := by
  rw [squareTable, Std.TreeMap.getElem?_insert_self]

/-- With `p = 3` the sum of the shared call with itself is 18. -/
theorem evaluate_squares :
    squareTable.DrawnFrom squaresGraph ∧
    (ParameterTable.ofRows [(.symbol 4 "p", 3.0)]).Distinct ∧
    .binary 8 .add (.call 7 "square" [.symbol 4 "p"] 0) (.call 7 "square" [.symbol 4 "p"] 0) ∈
      squaresGraph ∧
    ({ table := .ofRows [(.symbol 4 "p", 3.0)], call := squareTable.call [] } : Environment).evaluate
      (.binary 8 .add (.call 7 "square" [.symbol 4 "p"] 0) (.call 7 "square" [.symbol 4 "p"] 0)) =
      .ok 18.0 := by
  have hdistinct : (ParameterTable.ofRows [(.symbol 4 "p", 3.0)]).Distinct := by
    simp [ParameterTable.Distinct, ParameterTable.ofRows, ParameterTable.nodes]
  have hmem : .binary 8 .add (.call 7 "square" [.symbol 4 "p"] 0)
      (.call 7 "square" [.symbol 4 "p"] 0) ∈ squaresGraph := by
    exact Or.inr (Or.inr (Or.inr (Or.inr rfl)))
  refine ⟨squareTable_drawnFrom, hdistinct, hmem, ?_⟩
  rw [(evaluate_eq_treeValue _ _ squareTable_drawnFrom _ hdistinct _ hmem).2.2 []]
  have hbody (call : CallSemantics) :
      ({ table := .ofRows [(.symbol 5 "a", 3.0)], call } : Environment).treeEvaluate
        (.binary 6 .mul (.symbol 5 "a") (.symbol 5 "a")) = .ok (3.0 * 3.0) := rfl
  have hcall : squareTable.callWith Environment.treeEvaluate [] "square" [3.0] 0 = .ok (3.0 * 3.0) := by
    rw [FunctionTable.callWith_of_found rfl squareTable_square]
    simp only [ModelFunction.applyWith, List.length_cons, List.length_nil, bne_self_eq_false,
      Bool.false_eq_true, if_false, List.mapM_cons, List.mapM_nil, List.zip_cons_cons, List.zip_nil_left]
    rw [hbody]
    rfl
  have hshared : treeValue (ParameterTable.ofRows [(.symbol 4 "p", 3.0)]).first?
      (squareTable.callWith Environment.treeEvaluate [])
      (.binary 8 .add (.call 7 "square" [.symbol 4 "p"] 0) (.call 7 "square" [.symbol 4 "p"] 0))
      (.call 7 "square" [.symbol 4 "p"] 0) = .ok (3.0 * 3.0) := hcall
  have hsum : (3.0 * 3.0 + 3.0 * 3.0 : Float) = 18.0 := by decide
  rw [treeValue_of_children {} rfl rfl]
  simp only [Expr.children, treeValues, hshared]
  exact congrArg Except.ok hsum

end FlatDae
