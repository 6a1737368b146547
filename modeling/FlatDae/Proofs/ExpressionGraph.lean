/-
Module: FlatDae.Proofs.ExpressionGraph
Purpose: What it means that expressions are drawn from one graph of shared nodes. An `Expr` is a tree
  whose nodes carry identities; it stands for a graph only if an identity always has the same node
  behind it. `Expr.Graph` says so of a set of nodes, and the walks that skip identities they have
  already seen are shown to miss nothing of an expression of a graph.
Main exports: Expr.Within, Expr.Graph, Expr.Graph.insert, Expr.Graph.nodesOf, Expr.mem_nodeList,
  Expr.lt_supplyAbove, Expr.mem_symbols
-/
import FlatDae.Expr.Symbols
import Mathlib.Data.List.Nodup
import Mathlib.Data.Set.Insert

namespace FlatDae.Expr

/-- `Within n e`: the node `n` is `e` itself or lies below it. -/
inductive Within : Expr → Expr → Prop where
  | self (e : Expr) : Within e e
  | deeper {n c e : Expr} (child : c ∈ e.children) (within : Within n c) : Within n e

namespace Within

theorem trans {a b c : Expr} (hab : Within a b) (hbc : Within b c) : Within a c := by
  induction hbc with
  | self => exact hab
  | deeper child _ ih => exact .deeper child ih

theorem child {c e : Expr} (h : c ∈ e.children) : Within c e :=
  .deeper h (.self c)

end Within

/-- A child is smaller than its parent. -/
theorem sizeOf_lt_of_mem_children {c e : Expr} (h : c ∈ e.children) : sizeOf c < sizeOf e := by
  have hle : sizeOf c ≤ pendingSize e.children := by
    generalize e.children = cs at h
    induction cs with
    | nil => simp at h
    | cons d ds ih =>
        rcases List.mem_cons.1 h with rfl | htail
        · simp
        · have := ih htail
          simp only [pendingSize_cons]
          omega
  exact Nat.lt_of_le_of_lt hle (pendingSize_children_lt e)

/-- What lies below an expression is no larger than it. -/
theorem Within.sizeOf_le {n e : Expr} (h : n.Within e) : sizeOf n ≤ sizeOf e := by
  induction h with
  | self => exact Nat.le_refl _
  | deeper child _ ih => exact Nat.le_of_lt (Nat.lt_of_le_of_lt ih (sizeOf_lt_of_mem_children child))

/-- What holds of a node whenever it holds of its children holds of every node. -/
theorem children_induction {P : Expr → Prop} (step : ∀ e, (∀ c ∈ e.children, P c) → P e) (e : Expr) :
    P e := by
  induction hsize : sizeOf e using Nat.strongRecOn generalizing e with
  | ind size ih =>
      apply step
      intro c hc
      exact ih (sizeOf c) (hsize ▸ sizeOf_lt_of_mem_children hc) c rfl

/-! ### Graphs -/

/-- The nodes of an expression graph. The children of a node are nodes, and no two nodes share an
    identity. -/
structure Graph where
  nodes : Set Expr
  closed : ∀ n ∈ nodes, ∀ c ∈ n.children, c ∈ nodes
  unique : ∀ a ∈ nodes, ∀ b ∈ nodes, a.id = b.id → a = b

namespace Graph

instance : Membership Expr Graph where
  mem g e := e ∈ g.nodes

variable {g : Graph} {e n : Expr}

theorem mem_children (he : e ∈ g) {c : Expr} (hc : c ∈ e.children) : c ∈ g :=
  g.closed e he c hc

theorem eq_of_id_eq {a b : Expr} (ha : a ∈ g) (hb : b ∈ g) (h : a.id = b.id) : a = b :=
  g.unique a ha b hb h

theorem mem_of_within (he : e ∈ g) (h : n.Within e) : n ∈ g := by
  induction h with
  | self => exact he
  | deeper child _ ih => exact ih (mem_children he child)

/-- All nodes of the graph have identities that were given out before `supply`. -/
def Below (g : Graph) (supply : Supply) : Prop := ∀ n ∈ g, n.id < supply.next

/-- The graph with one more node over nodes that it has. -/
def insert (g : Graph) (n : Expr) (hchildren : ∀ c ∈ n.children, c ∈ g)
    (hnew : ∀ m ∈ g, m.id ≠ n.id) : Graph where
  nodes := Insert.insert n g.nodes
  closed := by
    intro m hm c hc
    rcases hm with rfl | hm
    · exact Or.inr (hchildren c hc)
    · exact Or.inr (g.closed m hm c hc)
  unique := by
    intro a ha b hb hid
    rcases ha with rfl | ha <;> rcases hb with rfl | hb
    · rfl
    · exact absurd hid.symm (hnew b hb)
    · exact absurd hid (hnew a ha)
    · exact g.unique a ha b hb hid

/-- The nodes of one expression of a graph, as a graph of their own. -/
def nodesOf (g : Graph) (e : Expr) (he : e ∈ g) : Graph where
  nodes := { n | n.Within e }
  closed := fun _ hn _ hc => (Within.child hc).trans hn
  unique := fun _ ha _ hb hid => eq_of_id_eq (mem_of_within he ha) (mem_of_within he hb) hid

/-- A node without children, as a graph of its own. -/
def leaf (e : Expr) (h : e.children = []) : Graph where
  nodes := { e }
  closed := by
    rintro n rfl child hchild
    rw [h] at hchild
    cases hchild
  unique := by
    rintro a rfl b rfl -
    rfl

theorem mem_leaf (e : Expr) (h : e.children = []) : e ∈ leaf e h := rfl

/-- The listed nodes, with all their children and no identity twice, as a graph. -/
def ofList (nodes : List Expr) (hchildren : ∀ n ∈ nodes, ∀ c ∈ n.children, c ∈ nodes)
    (hdistinct : (nodes.map Expr.id).Nodup) : Graph where
  nodes := { n | n ∈ nodes }
  closed := hchildren
  unique := fun _ ha _ hb hid => List.inj_on_of_nodup_map hdistinct ha hb hid

end Graph

/-! ### Walks over distinct nodes -/

/-- The nodes of an expression in the order in which they are first met. -/
def nodeList (e : Expr) : List Expr := foldNodes (fun found n => found ++ [n]) [e] ∅ []

/-- A walk that carries `f` can be replaced by one that carries another function, if what is carried
    corresponds. -/
theorem foldNodes_hom {α β : Type} (h : α → β) (f : α → Expr → α) (f' : β → Expr → β)
    (hstep : ∀ a n, h (f a n) = f' (h a) n) (pending : List Expr) (seen : Std.HashSet NodeId) (a : α) :
    h (foldNodes f pending seen a) = foldNodes f' pending seen (h a) := by
  fun_induction foldNodes f pending seen a with
  | case1 => simp [foldNodes]
  | case2 e rest seen a hseen ih => rw [ih, foldNodes.eq_2, if_pos hseen]
  | case3 e rest seen a hnew ih =>
      rw [ih, foldNodes.eq_2 f', if_neg hnew, hstep]

/-- Every walk over distinct nodes is a fold over the list of nodes. -/
theorem foldNodes_eq_foldl {α : Type} (f : α → Expr → α) (e : Expr) (a : α) :
    foldNodes f [e] ∅ a = e.nodeList.foldl f a := by
  have h := foldNodes_hom (fun found => found.foldl f a) (fun found n => found ++ [n]) f
    (by simp) [e] ∅ []
  exact h.symm

/-- Whatever is found was found before or lies below a pending expression. -/
theorem mem_foldNodes_sound {n : Expr} (pending : List Expr) (seen : Std.HashSet NodeId)
    (found : List Expr) (h : n ∈ foldNodes (fun found n => found ++ [n]) pending seen found) :
    n ∈ found ∨ ∃ e ∈ pending, n.Within e := by
  fun_induction foldNodes (fun found n => found ++ [n]) pending seen found with
  | case1 => exact Or.inl h
  | case2 e rest seen found _ ih =>
      rcases ih h with hfound | ⟨e', he', hwithin⟩
      · exact Or.inl hfound
      · exact Or.inr ⟨e', List.mem_cons_of_mem _ he', hwithin⟩
  | case3 e rest seen found _ ih =>
      rcases ih h with hfound | ⟨e', he', hwithin⟩
      · rcases List.mem_append.1 hfound with hold | hself
        · exact Or.inl hold
        · rw [List.mem_singleton.1 hself]
          exact Or.inr ⟨e, List.mem_cons_self, .self e⟩
      · rcases List.mem_append.1 he' with hchild | hrest
        · exact Or.inr ⟨e, List.mem_cons_self, (hwithin.trans (.child hchild))⟩
        · exact Or.inr ⟨e', List.mem_cons_of_mem _ hrest, hwithin⟩

/-- What a walk knows half way: the identities seen are those of the nodes found, each node found once,
    and the children of a node found are found or pending. -/
structure WalkInvariant (g : Graph) (pending : List Expr) (seen : Std.HashSet NodeId)
    (found : List Expr) : Prop where
  pending_mem : ∀ e ∈ pending, e ∈ g
  found_mem : ∀ n ∈ found, n ∈ g
  seen_iff : ∀ id, id ∈ seen ↔ ∃ n ∈ found, n.id = id
  distinct : (found.map id).Nodup
  children : ∀ n ∈ found, ∀ c ∈ n.children, c ∈ found ∨ c ∈ pending

namespace WalkInvariant

variable {g : Graph} {e : Expr} {rest found : List Expr} {seen : Std.HashSet NodeId}

/-- An identity seen before is that of a node found before. -/
theorem mem_found (inv : WalkInvariant g (e :: rest) seen found) (hseen : seen.contains e.id) :
    e ∈ found := by
  obtain ⟨n, hn, hid⟩ := (inv.seen_iff e.id).1 (Std.HashSet.mem_iff_contains.2 hseen)
  have he : e ∈ g := inv.pending_mem e List.mem_cons_self
  rw [Graph.eq_of_id_eq he (inv.found_mem n hn) hid.symm]
  exact hn

theorem skip (inv : WalkInvariant g (e :: rest) seen found) (hseen : seen.contains e.id) :
    WalkInvariant g rest seen found where
  pending_mem := fun n hn => inv.pending_mem n (List.mem_cons_of_mem _ hn)
  found_mem := inv.found_mem
  seen_iff := inv.seen_iff
  distinct := inv.distinct
  children := by
    intro n hn c hc
    rcases inv.children n hn c hc with hfound | hpending
    · exact Or.inl hfound
    · rcases List.mem_cons.1 hpending with rfl | hrest
      · exact Or.inl (inv.mem_found hseen)
      · exact Or.inr hrest

theorem enter (inv : WalkInvariant g (e :: rest) seen found) (hnew : ¬ seen.contains e.id) :
    WalkInvariant g (e.children ++ rest) (seen.insert e.id) (found ++ [e]) where
  pending_mem := by
    intro n hn
    rcases List.mem_append.1 hn with hchild | hrest
    · exact Graph.mem_children (inv.pending_mem e List.mem_cons_self) hchild
    · exact inv.pending_mem n (List.mem_cons_of_mem _ hrest)
  found_mem := by
    intro n hn
    rcases List.mem_append.1 hn with hold | hself
    · exact inv.found_mem n hold
    · rw [List.mem_singleton.1 hself]
      exact inv.pending_mem e List.mem_cons_self
  seen_iff := by
    intro id
    simp only [Std.HashSet.mem_insert, inv.seen_iff, beq_iff_eq, List.mem_append,
      List.mem_singleton, or_and_right, exists_or, exists_eq_left]
    exact Or.comm
  distinct := by
    rw [List.map_append, List.nodup_append]
    refine ⟨inv.distinct, by simp, ?_⟩
    intro id hid id' hid' heq
    obtain ⟨n, hn, hnid⟩ := List.mem_map.1 hid
    simp only [List.map_cons, List.map_nil, List.mem_singleton] at hid'
    apply hnew
    rw [← Std.HashSet.mem_iff_contains, inv.seen_iff]
    exact ⟨n, hn, by rw [hnid, heq, hid']⟩
  children := by
    intro n hn c hc
    rcases List.mem_append.1 hn with hold | hself
    · rcases inv.children n hold c hc with hfound | hpending
      · exact Or.inl (List.mem_append_left _ hfound)
      · rcases List.mem_cons.1 hpending with rfl | hrest
        · exact Or.inl (by simp)
        · exact Or.inr (List.mem_append_right _ hrest)
    · rw [List.mem_singleton.1 hself] at hc
      exact Or.inr (List.mem_append_left _ hc)

end WalkInvariant

/-- At its end a walk has found all that was found or pending, and with a node its children. -/
theorem foldNodes_complete {g : Graph} (pending : List Expr) (seen : Std.HashSet NodeId)
    (found : List Expr) (inv : WalkInvariant g pending seen found) :
    ∃ seen', WalkInvariant g [] seen' (foldNodes (fun found n => found ++ [n]) pending seen found) ∧
      (∀ n, n ∈ found ∨ n ∈ pending →
        n ∈ foldNodes (fun found n => found ++ [n]) pending seen found) := by
  fun_induction foldNodes (fun found n => found ++ [n]) pending seen found with
  | case1 seen found => exact ⟨seen, inv, by simp⟩
  | case2 e rest seen found hseen ih =>
      obtain ⟨seen', hinv, hmem⟩ := ih (inv.skip hseen)
      refine ⟨seen', hinv, ?_⟩
      intro n hn
      apply hmem
      rcases hn with hfound | hpending
      · exact Or.inl hfound
      · rcases List.mem_cons.1 hpending with rfl | hrest
        · exact Or.inl (inv.mem_found hseen)
        · exact Or.inr hrest
  | case3 e rest seen found hnew ih =>
      obtain ⟨seen', hinv, hmem⟩ := ih (inv.enter hnew)
      refine ⟨seen', hinv, ?_⟩
      intro n hn
      apply hmem
      rcases hn with hfound | hpending
      · exact Or.inl (List.mem_append_left _ hfound)
      · rcases List.mem_cons.1 hpending with rfl | hrest
        · exact Or.inl (by simp)
        · exact Or.inr (List.mem_append_right _ hrest)

/-- The walk over an expression of a graph starts well. -/
theorem walkInvariant_start {g : Graph} {e : Expr} (he : e ∈ g) : WalkInvariant g [e] ∅ [] where
  pending_mem := by simpa using he
  found_mem := by simp
  seen_iff := by simp
  distinct := by simp
  children := by simp

/-- In a graph the list of nodes holds exactly the nodes of the expression. -/
theorem mem_nodeList {g : Graph} {e n : Expr} (he : e ∈ g) : n ∈ e.nodeList ↔ n.Within e := by
  constructor
  · intro h
    rcases mem_foldNodes_sound [e] ∅ [] h with hfound | ⟨e', he', hwithin⟩
    · simp at hfound
    · rw [List.mem_singleton.1 he'] at hwithin
      exact hwithin
  · intro h
    obtain ⟨_, hinv, hmem⟩ := foldNodes_complete [e] ∅ [] (walkInvariant_start he)
    -- going down from `e`, every child of a node found is found
    have down : ∀ {n m : Expr}, n.Within m → m ∈ e.nodeList → n ∈ e.nodeList := by
      intro n m hwithin
      induction hwithin with
      | self => exact fun hm => hm
      | deeper child _ ih =>
          intro hm
          rcases hinv.children _ hm _ child with hfound | hpending
          · exact ih hfound
          · simp at hpending
    exact down h (hmem e (Or.inr List.mem_cons_self))

/-! ### Identities beside an expression -/

/-- Folding with a maximum ends above everything folded. -/
theorem next_le_foldl_max (ns : List Expr) (supply : Supply) :
    supply.next ≤ (ns.foldl (fun supply n => { next := max supply.next (n.id + 1) }) supply).next ∧
      ∀ n ∈ ns,
        n.id < (ns.foldl (fun supply n => { next := max supply.next (n.id + 1) }) supply).next := by
  induction ns generalizing supply with
  | nil => simp
  | cons m ns ih =>
      obtain ⟨hstart, hmem⟩ := ih { next := max supply.next (m.id + 1) }
      have hself : m.id < max supply.next (m.id + 1) :=
        Nat.lt_of_lt_of_le (Nat.lt_succ_self _) (Nat.le_max_right _ _)
      simp only [List.foldl_cons, List.mem_cons, forall_eq_or_imp]
      exact ⟨Nat.le_trans (Nat.le_max_left _ _) hstart, Nat.lt_of_lt_of_le hself hstart, hmem⟩

/-- The supply above an expression of a graph hands out none of the expression's identities. -/
theorem lt_supplyAbove {g : Graph} {e n : Expr} (he : e ∈ g) (h : n.Within e) :
    n.id < e.supplyAbove.next := by
  rw [supplyAbove, foldNodes_eq_foldl]
  exact (next_le_foldl_max e.nodeList {}).2 n ((mem_nodeList he).2 h)

/-! ### Symbols -/

/-- The symbols are those of the nodes that are symbols. -/
theorem symbols_eq_filter (e : Expr) : e.symbols = e.nodeList.filter isSymbol := by
  rw [symbols, foldNodes_eq_foldl]
  suffices h : ∀ (ns : List Expr) (found : Array Expr),
      (ns.foldl collectSymbol found).toList = found.toList ++ ns.filter isSymbol by
    simpa using h e.nodeList #[]
  intro ns
  induction ns with
  | nil => simp
  | cons n ns ih =>
      intro found
      rw [List.foldl_cons, ih, collectSymbol]
      by_cases hsymbol : n.isSymbol <;> simp [hsymbol]

/-- The symbols of a node without children: itself, if it is one. -/
theorem symbols_leaf {e : Expr} (h : e.children = []) : e.symbols = [e].filter isSymbol := by
  have hnodes : e.nodeList = [e] := by simp [nodeList, foldNodes, h]
  rw [symbols_eq_filter, hnodes]

@[simp] theorem symbols_constant (id : NodeId) (value : Float) : (constant id value).symbols = [] :=
  symbols_leaf rfl

@[simp] theorem symbols_symbol (id : NodeId) (name : String) :
    (symbol id name).symbols = [symbol id name] :=
  symbols_leaf rfl

/-- In a graph the symbols of an expression are the symbols among its nodes. -/
theorem mem_symbols {g : Graph} {e s : Expr} (he : e ∈ g) :
    s ∈ e.symbols ↔ s.isSymbol ∧ s.Within e := by
  rw [symbols_eq_filter, List.mem_filter, mem_nodeList he, and_comm]

end FlatDae.Expr
