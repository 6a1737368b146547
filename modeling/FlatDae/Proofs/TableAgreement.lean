/-
Module: FlatDae.Proofs.TableAgreement
Purpose: The value of an expression rests on the values of its symbols alone. Recursion looks at the
  nodes of the tree and at the functions that they call, and at nothing else; in a table that is keyed by
  symbols the only nodes it finds there are the symbols of the expression.
Main exports: Expr.Mentions, treeValue_congr, ParameterTable.KeyedBySymbols, ParameterTable.OnSymbols,
  Environment.evaluate_congr
-/
import FlatDae.Proofs.EvaluatorAgreement
import Mathlib.Data.List.Nodup

namespace FlatDae

open FlatDae.Expr (Graph Piece)

/-! ### Trees -/

section Trees

variable {known known' : Expr → Option Float}

/-- The expressions among the pieces of a node are its children. -/
theorem mem_children_of_mem_pieces {e c : Expr} (h : Piece.expr c ∈ e.pieces) : c ∈ e.children := by
  have hcomma (es : List Expr) (hc : Piece.expr c ∈ Expr.commaSeparated es) : c ∈ es := by
    fun_induction Expr.commaSeparated es with
    | case1 => cases hc
    | case2 e =>
        rw [List.mem_singleton] at hc
        rw [Piece.expr.inj hc]
        exact List.mem_cons_self
    | case3 e es _ ih =>
        rcases List.mem_cons.1 hc with heq | hrest
        · rw [Piece.expr.inj heq]
          exact List.mem_cons_self
        · rcases List.mem_cons.1 hrest with htext | hlater
          · cases htext
          · exact List.mem_cons_of_mem _ (ih hlater)
  cases e with
  | call id function args output =>
      refine hcomma args ?_
      simpa [Expr.pieces] using h
  | vertcat id rows =>
      refine hcomma rows ?_
      simpa [Expr.pieces] using h
  | constant => simp [Expr.pieces] at h
  | symbol => simp [Expr.pieces] at h
  | _ => simpa [Expr.pieces, Expr.children] using h

/-- The text of pieces shows the known values of nodes within them only. -/
theorem writePieces_congr (ps : List Piece) (written : String)
    (h : ∀ e, Piece.expr e ∈ ps → ∀ n, Expr.Within n e → known n = known' n) :
    Expr.writePieces known ps written = Expr.writePieces known' ps written := by
  fun_induction Expr.writePieces known ps written with
  | case1 written => rw [Expr.writePieces.eq_1]
  | case2 s rest written ih =>
      rw [Expr.writePieces.eq_2, ih fun e he => h e (List.mem_cons_of_mem _ he)]
  | case3 e rest written value hvalue ih =>
      have hvalue' : known' e = some value := by
        rw [← h e List.mem_cons_self e (.self e), hvalue]
      rw [Expr.writePieces.eq_3, hvalue', ih fun e he => h e (List.mem_cons_of_mem _ he)]
  | case4 e rest written hvalue ih =>
      have hvalue' : known' e = none := by
        rw [← h e List.mem_cons_self e (.self e), hvalue]
      rw [Expr.writePieces.eq_3, hvalue']
      refine ih fun c hc n hn => ?_
      rcases List.mem_append.1 hc with hpiece | hrest
      · exact h e List.mem_cons_self n (hn.trans (.child (mem_children_of_mem_pieces hpiece)))
      · exact h c (List.mem_cons_of_mem _ hrest) n hn

theorem printWith_congr (e : Expr) (h : ∀ n, Expr.Within n e → known n = known' n) :
    e.printWith known = e.printWith known' := by
  refine writePieces_congr _ _ fun c hc => ?_
  rw [Piece.expr.inj (List.mem_singleton.1 hc)]
  exact h

theorem knownObstacle?_congr (whole e : Expr) (h : ∀ n, Expr.Within n e → known n = known' n) :
    knownObstacle? known whole e = knownObstacle? known' whole e := by
  have hprint := printWith_congr e h
  cases e with
  | der => simp only [knownObstacle?, hprint]
  | vertcat id rows =>
      match rows with
      | [] | _ :: _ :: _ => simp only [knownObstacle?, hprint]
      | [_] => rfl
  | _ => rfl

/-- There is a call of the function in the expression. -/
def Expr.Mentions (e : Expr) (function : String) : Prop :=
  ∃ id args output, Within (.call id function args output) e

/-- The value of a tree rests on what is known of its nodes and on what calls of the functions mean that
    it mentions, and on nothing else. -/
theorem treeValue_congr {call call' : CallSemantics} {whole : Expr} (e : Expr)
    (h : ∀ n, Expr.Within n e → known n = known' n)
    (hcall : ∀ function, e.Mentions function → call function = call' function) :
    treeValue known call whole e = treeValue known' call' whole e := by
  induction e using Expr.children_induction with
  | step e ih =>
      have hself := h e (.self e)
      cases hknown : known' e with
      | some value => rw [treeValue_of_known (hself.trans hknown), treeValue_of_known hknown]
      | none =>
          have hsame := knownObstacle?_congr whole e h
          cases hobstacle : knownObstacle? known' whole e with
          | some error =>
              rw [treeValue_of_obstacle (hself.trans hknown) (hsame.trans hobstacle),
                treeValue_of_obstacle hknown hobstacle]
          | none =>
              have hchildren : treeValues known call whole e.children =
                  treeValues known' call' whole e.children := by
                rw [treeValues_eq_mapM, treeValues_eq_mapM]
                refine mapM_congr_mem _ fun c hc => ih c hc (fun n hn => h n (.deeper hc hn)) ?_
                rintro function ⟨id, args, output, hin⟩
                exact hcall function ⟨id, args, output, .deeper hc hin⟩
              have hcombine : Environment.combine { table := {}, call } e =
                  Environment.combine { table := {}, call := call' } e := by
                obtain ⟨id, function, args, output, rfl⟩ | hother := Environment.combine_cases e
                · funext values
                  simp only [Environment.combine, hcall function ⟨id, args, output, .self _⟩]
                · exact hother _ _
              rw [treeValue_of_children {} (hself.trans hknown) (hsame.trans hobstacle),
                treeValue_of_children {} hknown hobstacle, hchildren, hcombine]

end Trees

/-! ### Tables keyed by symbols -/

namespace ParameterTable

/-- The nodes of the table are different symbols of the graph. -/
structure KeyedBySymbols (g : Graph) (table : ParameterTable) : Prop where
  symbols : ∀ n ∈ table.nodes, n ∈ g ∧ n.isSymbol = true
  distinct : table.Distinct

/-- What a table knows of a node is in a row of the node. -/
theorem exists_row_of_first? {table : ParameterTable} {e : Expr} {value : Float}
    (h : table.first? e = some value) : ∃ n, (n, value) ∈ table.rows.toList ∧ n.id = e.id := by
  obtain ⟨row, hfind, rfl⟩ := Option.map_eq_some_iff.1 h
  refine ⟨row.1, Array.mem_toList_iff.2 (Array.mem_of_find?_eq_some hfind), ?_⟩
  simpa [Expr.same] using Array.find?_some hfind

theorem exists_row_of_last? {table : ParameterTable} {e : Expr} {value : Float}
    (h : table.last? e = some value) : ∃ n, (n, value) ∈ table.rows.toList ∧ n.id = e.id := by
  obtain ⟨row, hfind, rfl⟩ := Option.map_eq_some_iff.1 h
  rw [Array.findRev?_eq_find?_reverse] at hfind
  refine ⟨row.1, ?_, ?_⟩
  · simpa using Array.mem_of_find?_eq_some hfind
  · simpa [Expr.same] using Array.find?_some hfind

/-- In a table of different nodes a row gives the value of its node. -/
theorem first?_of_mem {table : ParameterTable} (h : table.Distinct) {n : Expr} {value : Float}
    (hrow : (n, value) ∈ table.rows.toList) : table.first? n = some value := by
  cases hfirst : table.first? n with
  | none =>
      rw [first?, Option.map_eq_none_iff, Array.find?_eq_none] at hfirst
      exact absurd (by simp [Expr.same]) (hfirst _ (Array.mem_toList_iff.1 hrow))
  | some value' =>
      obtain ⟨n', hrow', hid⟩ := exists_row_of_first? hfirst
      rw [Distinct, nodes, List.map_map] at h
      have hsame := List.inj_on_of_nodup_map h hrow' hrow hid
      rw [(Prod.mk.inj hsame).2]

/-- The nodes of the table are symbols of the graph. A symbol may have several rows. -/
def OnSymbols (g : Graph) (table : ParameterTable) : Prop :=
  ∀ n ∈ table.nodes, n ∈ g ∧ n.isSymbol = true

/-- Of the nodes of the graph such a table knows symbols only. -/
theorem OnSymbols.unknown {g : Graph} {table : ParameterTable} (h : table.OnSymbols g) {n : Expr}
    (hn : n ∈ g) (hsymbol : n.isSymbol = false) : table.first? n = none ∧ table.last? n = none := by
  have hrow (n' : Expr) (value : Float) (hrow : (n', value) ∈ table.rows.toList) : n'.id ≠ n.id := by
    intro hid
    obtain ⟨hn', hsymbol'⟩ := h n' (List.mem_map.2 ⟨_, hrow, rfl⟩)
    rw [Expr.Graph.eq_of_id_eq hn' hn hid, hsymbol] at hsymbol'
    cases hsymbol'
  constructor
  · refine Option.eq_none_iff_forall_ne_some.2 fun value hvalue => ?_
    obtain ⟨n', hmem, hid⟩ := exists_row_of_first? hvalue
    exact hrow n' value hmem hid
  · refine Option.eq_none_iff_forall_ne_some.2 fun value hvalue => ?_
    obtain ⟨n', hmem, hid⟩ := exists_row_of_last? hvalue
    exact hrow n' value hmem hid

theorem KeyedBySymbols.first?_eq_none {g : Graph} {table : ParameterTable}
    (h : table.KeyedBySymbols g) {n : Expr} (hn : n ∈ g) (hsymbol : n.isSymbol = false) :
    table.first? n = none :=
  (OnSymbols.unknown h.symbols hn hsymbol).1

end ParameterTable

/-- Over a table keyed by symbols a number is its own value. -/
theorem Environment.evaluate_constant {g : Graph} {id : NodeId} {c : Float} (hc : .constant id c ∈ g)
    {table : ParameterTable} (h : table.KeyedBySymbols g) (call : CallSemantics) :
    ({ table, call } : Environment).evaluate (.constant id c) = .ok c := by
  rw [evaluate_leaf _ rfl, treeEvaluate_of_distinct h.distinct, treeValue.eq_def,
    h.first?_eq_none hc rfl]

/-- Tables keyed by symbols that agree on the symbols of an expression give it the same value. -/
theorem Environment.evaluate_congr {g : Graph} {e : Expr} (he : e ∈ g) {table table' : ParameterTable}
    (h : table.KeyedBySymbols g) (h' : table'.KeyedBySymbols g) (call : CallSemantics)
    (hagree : ∀ s ∈ e.symbols, table.first? s = table'.first? s) :
    ({ table, call } : Environment).evaluate e = ({ table := table', call } : Environment).evaluate e := by
  rw [evaluate_eq_treeEvaluate he, evaluate_eq_treeEvaluate he,
    treeEvaluate_of_distinct h.distinct, treeEvaluate_of_distinct h'.distinct]
  refine treeValue_congr e (fun n hn => ?_) fun _ _ => rfl
  cases hsymbol : n.isSymbol with
  | true => exact hagree n ((Expr.mem_symbols he).2 ⟨hsymbol, hn⟩)
  | false =>
      have hmem : n ∈ g := Graph.mem_of_within he hn
      rw [h.first?_eq_none hmem hsymbol, h'.first?_eq_none hmem hsymbol]

end FlatDae
