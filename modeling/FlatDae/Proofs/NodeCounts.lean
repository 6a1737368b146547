/-
Module: FlatDae.Proofs.NodeCounts
Purpose: The counts of a store of nodes. Every node counts the handles that point at it, whether they are
  kept outside of the store or in the fields of other nodes, and the nodes that nothing points at are the
  destroyed ones. New nodes, new handles and the release of handles keep the counts right, also between one
  handle that goes with a destroyed node and the next; and a release leaves the nodes that survive it as
  they were.
Main exports: HandleTable.count_erase, NodeStore.held, NodeStore.Accounts, NodeStore.Accounts.create,
  NodeStore.Accounts.acquire, NodeStore.Accounts.releaseOne, NodeStore.Accounts.release,
  NodeStore.Remains.release
-/
import FlatDae.Handle
import Mathlib.Data.List.Permutation

namespace FlatDae

/-! ### Tables of handles -/

namespace Handle

/-- Null handles are not counted. -/
theorem count_null_cons (handles : List Handle) (n : Nat) :
    (none :: handles).count (some n) = handles.count (some n) :=
  List.count_cons_of_ne (Option.some_ne_none n).symm

theorem count_cons (handles : List Handle) (n m : Nat) :
    (some n :: handles).count (some m) = handles.count (some m) + if m = n then 1 else 0 := by
  simp only [List.count_cons, beq_iff_eq, Option.some.injEq, eq_comm (a := n)]

end Handle

namespace HandleTable

variable {table : HandleTable}

@[simp] theorem handles_empty : handles ∅ = [] := rfl

theorem nodup_toList (table : HandleTable) : table.toList.Nodup := by
  refine List.Pairwise.imp (fun {a b} hne heq => hne ?_) table.distinct_keys_toList
  rw [heq]
  exact Std.ReflCmp.compare_self

/-- The handles of a table are those of any list of its entries. -/
theorem handles_perm {entries : List (String × Handle)} (hnodup : entries.Nodup)
    (hmem : ∀ name handle, (name, handle) ∈ entries ↔ table[name]? = some handle) :
    (handles table).Perm (entries.map (·.2)) := by
  refine ((List.perm_ext_iff_of_nodup (nodup_toList table) hnodup).2 ?_).map _
  rintro ⟨name, handle⟩
  rw [hmem, Std.TreeMap.mem_toList_iff_getElem?_eq_some]

theorem mem_erase_toList {name name' : String} {handle : Handle} :
    (name', handle) ∈ (table.erase name).toList ↔ name ≠ name' ∧ table[name']? = some handle := by
  rw [Std.TreeMap.mem_toList_iff_getElem?_eq_some, Std.TreeMap.getElem?_erase]
  simp

theorem nodup_cons_erase (table : HandleTable) (name : String) (handle : Handle) :
    ((name, handle) :: (table.erase name).toList).Nodup :=
  List.nodup_cons.2 ⟨fun hmem => (mem_erase_toList.1 hmem).1 rfl, nodup_toList _⟩

theorem handles_insert_perm (table : HandleTable) (name : String) (handle : Handle) :
    (handles (table.insert name handle)).Perm (handle :: handles (table.erase name)) := by
  refine handles_perm (nodup_cons_erase table name handle) fun name' handle' => ?_
  rw [List.mem_cons, mem_erase_toList, Std.TreeMap.getElem?_insert]
  by_cases hname : name = name'
  · simp [hname, eq_comm]
  · simp [hname, Ne.symm hname]

theorem handles_erase_perm {name : String} {handle : Handle} (hget : table[name]? = some handle) :
    (handles table).Perm (handle :: handles (table.erase name)) := by
  refine handles_perm (nodup_cons_erase table name handle) fun name' handle' => ?_
  rw [List.mem_cons, mem_erase_toList]
  by_cases hname : name = name'
  · subst hname
    simp [hget, eq_comm]
  · simp [hname, Ne.symm hname]

/-- A handle that is taken out of a table is the only one that is missing from it then. -/
theorem count_erase (table : HandleTable) (name : String) (n : Nat) :
    (table.getD name none :: handles (table.erase name)).count (some n) =
      (handles table).count (some n) := by
  rw [Std.TreeMap.getD_eq_getD_getElem?]
  cases hget : table[name]? with
  | some handle => exact ((handles_erase_perm hget).count_eq _).symm
  | none =>
      have hsame : (handles table).Perm (handles (table.erase name)) := by
        refine handles_perm (nodup_toList _) fun name' handle' => ?_
        rw [mem_erase_toList]
        refine and_iff_right_of_imp fun hget' hname => ?_
        rw [← hname, hget] at hget'
        cases hget'
      rw [hsame.count_eq, Option.getD_none, Handle.count_null_cons]

theorem mem_handles {name : String} {n : Nat} (hget : table.getD name none = some n) :
    some n ∈ handles table := by
  rw [Std.TreeMap.getD_eq_getD_getElem?] at hget
  cases hfound : table[name]? with
  | none =>
      rw [hfound] at hget
      cases hget
  | some handle =>
      rw [hfound, Option.getD_some] at hget
      exact List.mem_map.2 ⟨(name, handle), Std.TreeMap.mem_toList_iff_getElem?_eq_some.2 hfound, hget⟩

end HandleTable

namespace NodeStore

variable {α : Type} {store : NodeStore α} {n m : Nat} {node : CountedNode α}
  {f : CountedNode α → CountedNode α}

/-! ### One node -/

theorem count_eq (hnode : store.nodes[n]? = some node) : store.count (some n) = node.count := by
  simp [count, hnode]

theorem exists_node (hcount : store.count (some n) ≠ 0) : ∃ node, store.nodes[n]? = some node := by
  cases hnode : store.nodes[n]? with
  | some node => exact ⟨node, rfl⟩
  | none => simp [count, hnode] at hcount

theorem lt_size (hcount : store.count (some n) ≠ 0) : n < store.nodes.size := by
  obtain ⟨node, hnode⟩ := exists_node hcount
  exact (Array.getElem?_eq_some_iff.1 hnode).1

@[simp] theorem size_modify (store : NodeStore α) (n : Nat) (f : CountedNode α → CountedNode α) :
    (store.modify n f).nodes.size = store.nodes.size := Array.size_modify

@[simp] theorem freed_modify (store : NodeStore α) (n : Nat) (f : CountedNode α → CountedNode α) :
    (store.modify n f).freed = store.freed := rfl

theorem getElem?_modify (store : NodeStore α) (n m : Nat) (f : CountedNode α → CountedNode α) :
    (store.modify n f).nodes[m]? = if n = m then store.nodes[m]?.map f else store.nodes[m]? :=
  Array.getElem?_modify

theorem count_modify_of_ne (hne : n ≠ m) : (store.modify n f).count (some m) = store.count (some m) := by
  simp [count, getElem?_modify, hne]

theorem fields_modify_of_ne (hne : n ≠ m) : (store.modify n f).fields m = store.fields m := by
  simp [fields, getElem?_modify, hne]

theorem count_modify_self (hnode : store.nodes[n]? = some node) :
    (store.modify n f).count (some n) = (f node).count := by
  simp [count, getElem?_modify, hnode]

theorem fields_modify_self (hnode : store.nodes[n]? = some node) :
    (store.modify n f).fields n = (f node).fields := by
  simp [fields, getElem?_modify, hnode]

@[simp] theorem fields_acquire (store : NodeStore α) (handle : Handle) (m : Nat) :
    (store.acquire handle).fields m = store.fields m := by
  cases handle with
  | none => rfl
  | some n =>
      by_cases heq : n = m
      · cases hnode : store.nodes[m]? <;> simp [acquire, fields, getElem?_modify, heq, hnode]
      · exact fields_modify_of_ne heq

@[simp] theorem size_acquire (store : NodeStore α) (handle : Handle) :
    (store.acquire handle).nodes.size = store.nodes.size := by
  cases handle with
  | none => rfl
  | some n => exact size_modify store n _

@[simp] theorem freed_acquire (store : NodeStore α) (handle : Handle) :
    (store.acquire handle).freed = store.freed := by
  cases handle <;> rfl

/-! ### The handles in fields -/

/-- The handles in the fields of nodes. -/
def held (store : NodeStore α) : List Handle :=
  store.nodes.toList.flatMap fun node => node.fields.handles

theorem held_modify_perm (hnode : store.nodes[n]? = some node) (f : CountedNode α → CountedNode α) :
    ((store.modify n f).held ++ node.fields.handles).Perm (store.held ++ (f node).fields.handles) := by
  obtain ⟨front, back, hnodes, hmodified⟩ := toList_modify hnode f
  simp only [List.perm_iff_count, held, hmodified, hnodes, List.flatMap_append, List.flatMap_cons,
    List.count_append]
  omega

theorem mem_held {handle : Handle} (hmem : handle ∈ (store.fields n).handles) : handle ∈ store.held := by
  unfold fields at hmem
  split at hmem
  · next node hnode =>
    exact List.mem_flatMap.2 ⟨node, Array.mem_toList_iff.2 (Array.mem_of_getElem? hnode), hmem⟩
  · cases hmem

/-! ### New nodes -/

@[simp] theorem size_create (store : NodeStore α) (value : α) :
    (store.create value).2.nodes.size = store.nodes.size + 1 := Array.size_push _

@[simp] theorem count_create (store : NodeStore α) (value : α) (m : Nat) :
    (store.create value).2.count (some m) =
      if m = store.nodes.size then 1 else store.count (some m) := by
  by_cases heq : m = store.nodes.size <;> simp [count, create, Array.getElem?_push, heq]

@[simp] theorem fields_create (store : NodeStore α) (value : α) (m : Nat) :
    (store.create value).2.fields m = store.fields m := by
  by_cases heq : m = store.nodes.size <;> simp [fields, create, Array.getElem?_push, heq]

@[simp] theorem held_create (store : NodeStore α) (value : α) :
    (store.create value).2.held = store.held := by
  simp [held, create]

/-- There is nothing to count for a node that is not made yet. -/
theorem count_eq_zero (hn : store.nodes.size ≤ n) : store.count (some n) = 0 := by
  simp [count, Array.getElem?_eq_none hn]

/-! ### Weak references -/

theorem upgrade_eq_some_iff {weak : Handle} :
    store.upgrade weak = some n ↔ weak = some n ∧ store.count (some n) ≠ 0 := by
  unfold upgrade
  split
  · next hzero =>
    rw [beq_iff_eq] at hzero
    refine iff_of_false nofun fun ⟨hweak, hcount⟩ => hcount ?_
    rw [← hweak, hzero]
  · next hcount =>
    rw [beq_iff_eq] at hcount
    exact (and_iff_left_of_imp fun heq => heq ▸ hcount).symm

/-! ### Right counts -/

/-- The counts of the store are right if `outside` are the handles that are kept outside of it: each node
    counts the handles that point at it, and those that nothing points at are destroyed, each of them once
    and with its fields. -/
structure Accounts (store : NodeStore α) (outside : List Handle) : Prop where
  count_eq : ∀ n, store.count (some n) = (outside ++ store.held).count (some n)
  mem_freed : ∀ n, n ∈ store.freed ↔ n < store.nodes.size ∧ store.count (some n) = 0
  freed_nodup : store.freed.toList.Nodup
  fields_freed : ∀ n ∈ store.freed, store.fields n = ∅

variable {outside outside' : List Handle} {handle : Handle}

theorem count_modify (hnode : store.nodes[n]? = some node) (f : CountedNode α → CountedNode α) (m : Nat) :
    (store.modify n f).count (some m) + (if m = n then node.count else 0) =
      store.count (some m) + if m = n then (f node).count else 0 := by
  by_cases heq : m = n
  · rw [if_pos heq, if_pos heq, heq, count_modify_self hnode, count_eq hnode, Nat.add_comm]
  · rw [if_neg heq, if_neg heq, count_modify_of_ne (Ne.symm heq)]

namespace Accounts

theorem empty : ({} : NodeStore α).Accounts [] where
  count_eq := fun _ => rfl
  mem_freed := by simp
  freed_nodup := List.nodup_nil
  fields_freed := by simp

/-- Only the handles that point somewhere are counted. -/
theorem congr (h : store.Accounts outside)
    (hcount : ∀ n, outside'.count (some n) = outside.count (some n)) : store.Accounts outside' :=
  { h with count_eq := fun n => by rw [h.count_eq, List.count_append, List.count_append, hcount] }

theorem count_ne_zero (h : store.Accounts outside) (hmem : some n ∈ outside ++ store.held) :
    store.count (some n) ≠ 0 := by
  rw [h.count_eq]
  exact Nat.ne_of_gt (List.count_pos_iff.2 hmem)

theorem not_mem_freed (h : store.Accounts outside) (hcount : store.count (some n) ≠ 0) :
    n ∉ store.freed := fun hfreed => hcount ((h.mem_freed n).1 hfreed).2

/-- What a change of one node does to the handles that point at each node. -/
theorem count_eq_modify (h : store.Accounts outside) (hnode : store.nodes[n]? = some node)
    (hbalance : ∀ m, (outside' ++ (f node).fields.handles).count (some m) +
        (if m = n then node.count else 0) =
      (outside ++ node.fields.handles).count (some m) + if m = n then (f node).count else 0) (m : Nat) :
    (store.modify n f).count (some m) = (outside' ++ (store.modify n f).held).count (some m) := by
  have hcount := count_modify hnode f m
  have hheld := (held_modify_perm hnode f).count_eq (some m)
  have hm := hbalance m
  rw [h.count_eq] at hcount
  simp only [List.count_append] at hcount hheld hm ⊢
  omega

/-- A node that is not destroyed may change, together with the handles outside. -/
theorem modify (h : store.Accounts outside) (hnode : store.nodes[n]? = some node)
    (hcount : node.count ≠ 0) (hcount' : (f node).count ≠ 0)
    (hbalance : ∀ m, (outside' ++ (f node).fields.handles).count (some m) +
        (if m = n then node.count else 0) =
      (outside ++ node.fields.handles).count (some m) + if m = n then (f node).count else 0) :
    (store.modify n f).Accounts outside' where
  count_eq := h.count_eq_modify hnode hbalance
  mem_freed := by
    intro m
    rw [freed_modify, size_modify, h.mem_freed]
    by_cases heq : n = m
    · subst heq
      simp [count_modify_self hnode, NodeStore.count_eq hnode, hcount, hcount']
    · rw [count_modify_of_ne heq]
  freed_nodup := h.freed_nodup
  fields_freed := by
    intro m hfreed
    have hne : n ≠ m := by
      rintro rfl
      exact h.not_mem_freed (by rwa [NodeStore.count_eq hnode]) hfreed
    rw [fields_modify_of_ne hne, h.fields_freed m hfreed]

/-- A new node has the handle that is made with it. -/
theorem create (h : store.Accounts outside) (value : α) :
    (store.create value).2.Accounts ((store.create value).1 :: outside) where
  count_eq := by
    intro m
    rw [count_create, held_create, List.cons_append]
    refine Eq.trans ?_ (Handle.count_cons _ store.nodes.size m).symm
    rw [← h.count_eq]
    by_cases hm : m = store.nodes.size
    · rw [if_pos hm, if_pos hm, hm, count_eq_zero (Nat.le_refl _)]
    · rw [if_neg hm, if_neg hm, Nat.add_zero]
  mem_freed := by
    intro m
    rw [count_create, size_create]
    refine (h.mem_freed m).trans ?_
    by_cases hm : m = store.nodes.size
    · simp [hm]
    · rw [if_neg hm, Nat.lt_succ_iff_lt_or_eq, or_iff_left hm]
  freed_nodup := h.freed_nodup
  fields_freed := fun m hm => (fields_create store value m).trans (h.fields_freed m hm)

theorem acquire (h : store.Accounts outside)
    (halive : ∀ n, handle = some n → store.count (some n) ≠ 0) :
    (store.acquire handle).Accounts (handle :: outside) := by
  cases handle with
  | none => exact h.congr (Handle.count_null_cons outside)
  | some n =>
      have hcount := halive n rfl
      obtain ⟨node, hnode⟩ := exists_node hcount
      rw [NodeStore.count_eq hnode] at hcount
      refine h.modify hnode hcount (Nat.succ_ne_zero _) fun m => ?_
      rw [List.cons_append, Handle.count_cons]
      dsimp only
      split <;> omega

/-- The fields of a node that is not destroyed may change, together with the handles outside. -/
theorem setFields (h : store.Accounts outside) {table : HandleTable}
    (halive : store.count (some n) ≠ 0)
    (hcount : ∀ m, (outside' ++ table.handles).count (some m) =
      (outside ++ (store.fields n).handles).count (some m)) :
    (store.modify n fun node => { node with fields := table }).Accounts outside' := by
  obtain ⟨node, hnode⟩ := exists_node halive
  rw [NodeStore.count_eq hnode] at halive
  refine h.modify hnode halive halive fun m => ?_
  have hfields : store.fields n = node.fields := by simp [fields, hnode]
  rw [← hfields]
  exact congrArg (· + _) (hcount m)

/-- The last handle of a node goes, and the node with it. -/
theorem destroy (h : store.Accounts (some n :: outside)) (hnode : store.nodes[n]? = some node)
    (hlast : node.count = 1) :
    NodeStore.Accounts
      { store.modify n fun node => { node with count := 0, fields := ∅ } with
        freed := store.freed.push n } (node.fields.handles ++ outside) where
  count_eq := by
    refine h.count_eq_modify hnode fun m => ?_
    rw [List.cons_append, Handle.count_cons, HandleTable.handles_empty, List.append_nil, hlast]
    simp only [List.count_append]
    split <;> omega
  mem_freed := by
    intro m
    rw [Array.mem_push, h.mem_freed]
    change _ ↔ m < (store.modify n _).nodes.size ∧ (store.modify n _).count (some m) = 0
    rw [size_modify]
    by_cases heq : m = n
    · subst heq
      simp [count_modify_self hnode, (Array.getElem?_eq_some_iff.1 hnode).1]
    · rw [count_modify_of_ne (Ne.symm heq), or_iff_left heq]
  freed_nodup := by
    have hnew : n ∉ store.freed := h.not_mem_freed (h.count_ne_zero List.mem_cons_self)
    rw [Array.toList_push, ← List.concat_eq_append]
    exact h.freed_nodup.concat (by simpa using hnew)
  fields_freed := by
    intro m hm
    change (store.modify n _).fields m = ∅
    by_cases heq : m = n
    · rw [heq, fields_modify_self hnode]
    · rw [fields_modify_of_ne (Ne.symm heq)]
      exact h.fields_freed m ((Array.mem_push.1 hm).resolve_right heq)

theorem releaseOne (h : store.Accounts (some n :: outside)) :
    (store.releaseOne n).1.Accounts ((store.releaseOne n).2 ++ outside) := by
  have hcount : store.count (some n) ≠ 0 := h.count_ne_zero List.mem_cons_self
  obtain ⟨node, hnode⟩ := exists_node hcount
  rw [NodeStore.count_eq hnode] at hcount
  simp only [NodeStore.releaseOne, hnode]
  split
  · next hlast => exact h.destroy hnode hlast
  · next hmore =>
    refine h.modify hnode hcount (by dsimp only; omega) fun m => ?_
    rw [List.nil_append, List.cons_append, Handle.count_cons]
    dsimp only
    split <;> omega

/-- Released handles are no longer among those outside, and neither is anything that goes with them. -/
theorem release {gone : List Handle} (h : store.Accounts (gone ++ outside)) :
    (store.release gone).Accounts outside := by
  fun_induction NodeStore.release store gone with
  | case1 store => exact h
  | case2 store rest ih =>
      exact ih (h.congr fun n => (Handle.count_null_cons _ n).symm)
  | case3 store n rest ih =>
      rw [List.append_assoc] at ih
      exact ih h.releaseOne

end Accounts

/-! ### What a release leaves alone -/

/-- What remains of a store after some handles went: a node counts no more than before, keeps its fields
    unless it is destroyed, and stays destroyed if it is. -/
structure Remains (store left : NodeStore α) : Prop where
  size_eq : left.nodes.size = store.nodes.size
  freed_prefix : store.freed.toList <+: left.freed.toList
  count_le : ∀ n, left.count (some n) ≤ store.count (some n)
  fields_eq : ∀ n, left.count (some n) ≠ 0 → left.fields n = store.fields n

namespace Remains

theorem refl (store : NodeStore α) : Remains store store :=
  ⟨rfl, List.prefix_rfl, fun _ => Nat.le_refl _, fun _ _ => rfl⟩

theorem trans {left further : NodeStore α} (h : Remains store left) (h' : Remains left further) :
    Remains store further where
  size_eq := h'.size_eq.trans h.size_eq
  freed_prefix := h.freed_prefix.trans h'.freed_prefix
  count_le := fun n => Nat.le_trans (h'.count_le n) (h.count_le n)
  fields_eq := by
    intro n hcount
    refine (h'.fields_eq n hcount).trans (h.fields_eq n fun hzero => hcount ?_)
    exact Nat.le_zero.1 (hzero ▸ h'.count_le n)

/-- One node counts less and keeps its fields unless it counts nothing. -/
theorem modify (hnode : store.nodes[n]? = some node) (hcount : (f node).count ≤ node.count)
    (hfields : (f node).count ≠ 0 → (f node).fields = node.fields) (freed : Array Nat)
    (hfreed : store.freed.toList <+: freed.toList) :
    Remains store { store.modify n f with freed } where
  size_eq := size_modify store n f
  freed_prefix := hfreed
  count_le := by
    intro m
    change (store.modify n f).count (some m) ≤ _
    by_cases heq : n = m
    · rwa [← heq, count_modify_self hnode, count_eq hnode]
    · exact Nat.le_of_eq (count_modify_of_ne heq)
  fields_eq := by
    intro m
    change (store.modify n f).count (some m) ≠ 0 → (store.modify n f).fields m = _
    by_cases heq : n = m
    · subst heq
      rw [count_modify_self hnode, fields_modify_self hnode]
      simpa [fields, hnode] using hfields
    · exact fun _ => fields_modify_of_ne heq

theorem releaseOne (store : NodeStore α) (n : Nat) : Remains store (store.releaseOne n).1 := by
  unfold NodeStore.releaseOne
  split
  · exact refl store
  · next node hnode =>
    split
    · exact modify hnode (Nat.zero_le _) (fun hne => absurd rfl hne) _
        ⟨[n], (Array.toList_push).symm⟩
    · exact modify (f := fun node => { node with count := node.count - 1 }) hnode (Nat.sub_le _ _)
        (fun _ => rfl) store.freed List.prefix_rfl

theorem release (store : NodeStore α) (gone : List Handle) : Remains store (store.release gone) := by
  fun_induction NodeStore.release store gone with
  | case1 store => exact refl store
  | case2 store rest ih => exact ih
  | case3 store n rest ih => exact (releaseOne store n).trans ih

end Remains

end NodeStore

end FlatDae
