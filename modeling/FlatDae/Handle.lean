/-
Module: FlatDae.Handle
Purpose: Counted handles. A handle points at a node or is null; a node counts the handles that point
  at it and is destroyed when the last one goes, and with it go the handles in its fields. A weak
  reference points at a node without counting and gives a null handle once the node is destroyed.
  Handles are kept in slots and in the fields of nodes, and are reached from the slots, so that whole
  histories of making, copying, re-targeting and dropping them can be followed.
Main exports: Handle, NodeStore, NodeStore.acquire, NodeStore.release, Cell, Place, Handles, Handles.step
-/
import Std.Data.TreeMap

namespace FlatDae

/-- A handle: the number of the node it points at, or null. -/
abbrev Handle := Option Nat

/-- Handles under their names. -/
abbrev HandleTable := Std.TreeMap String Handle

/-- The handles of a table, in the order of their names. -/
def HandleTable.handles (table : HandleTable) : List Handle := table.toList.map (·.2)

/-- A node with the handles in its fields and the number of handles that point at it. -/
structure CountedNode (α : Type) where
  value : α
  count : Nat
  fields : HandleTable := ∅
deriving Repr, Inhabited

/-- All nodes ever made, and the numbers of those destroyed, in the order of their destruction. -/
structure NodeStore (α : Type) where
  nodes : Array (CountedNode α) := #[]
  freed : Array Nat := #[]
deriving Inhabited

namespace NodeStore

variable {α : Type}

/-- A new node with one handle to it. -/
def create (store : NodeStore α) (value : α) : Handle × NodeStore α :=
  (some store.nodes.size, { store with nodes := store.nodes.push { value, count := 1 } })

/-- The number of handles that point where `handle` does; no node, no handles. -/
def count (store : NodeStore α) (handle : Handle) : Nat :=
  match handle.bind (store.nodes[·]?) with
  | some node => node.count
  | none => 0

/-- The value of the node that a handle points at. -/
def value? (store : NodeStore α) (handle : Handle) : Option α :=
  (handle.bind (store.nodes[·]?)).map (·.value)

/-- The handles in the fields of a node. -/
def fields (store : NodeStore α) (n : Nat) : HandleTable :=
  match store.nodes[n]? with
  | some node => node.fields
  | none => ∅

/-- The values of the destroyed nodes, in the order of their destruction. -/
def destroyed (store : NodeStore α) : Array α :=
  store.freed.filterMap fun n => store.value? (some n)

/-- Changes one node. -/
def modify (store : NodeStore α) (n : Nat) (f : CountedNode α → CountedNode α) : NodeStore α :=
  { store with nodes := store.nodes.modify n f }

/-- One more handle points where `handle` does. -/
def acquire (store : NodeStore α) : Handle → NodeStore α
  | none => store
  | some n => store.modify n fun node => { node with count := node.count + 1 }

/-- A handle of the node `n` goes. The node is destroyed with its last handle; then the handles in its
    fields are the next to go. -/
def releaseOne (store : NodeStore α) (n : Nat) : NodeStore α × List Handle :=
  match store.nodes[n]? with
  | none => (store, [])
  | some node =>
    if node.count = 1 then
      ({ store.modify n fun node => { node with count := 0, fields := ∅ } with
          freed := store.freed.push n },
        node.fields.handles)
    else (store.modify n fun node => { node with count := node.count - 1 }, [])

/-- The number of nodes that are not destroyed. -/
def alive (store : NodeStore α) : Nat := store.nodes.countP (0 < ·.count)

theorem toList_modify {store : NodeStore α} {n : Nat} {node : CountedNode α}
    (hnode : store.nodes[n]? = some node) (f : CountedNode α → CountedNode α) :
    ∃ front back, store.nodes.toList = front ++ node :: back ∧
      (store.modify n f).nodes.toList = front ++ f node :: back := by
  obtain ⟨hn, hget⟩ := Array.getElem?_eq_some_iff.1 hnode
  obtain ⟨front, node', back, hnodes, hlength, hmodified⟩ :=
    List.exists_of_modify f (l := store.nodes.toList) (i := n) hn
  obtain rfl : node' = node := by
    simp [← hget, ← Array.getElem_toList, hnodes, ← hlength]
  exact ⟨front, back, hnodes, Array.toList_modify.trans hmodified⟩

theorem alive_modify {store : NodeStore α} {n : Nat} {node : CountedNode α}
    (hnode : store.nodes[n]? = some node) (f : CountedNode α → CountedNode α) :
    (store.modify n f).alive + (if 0 < node.count then 1 else 0) =
      store.alive + (if 0 < (f node).count then 1 else 0) := by
  obtain ⟨front, back, hnodes, hmodified⟩ := toList_modify hnode f
  simp only [alive, ← Array.countP_toList, hmodified, hnodes, List.countP_append, List.countP_cons,
    decide_eq_true_eq]
  omega

/-- Further handles go only when a node is destroyed. -/
theorem releaseOne_alive (store : NodeStore α) (n : Nat) :
    (store.releaseOne n).1.alive < store.alive ∨
      (store.releaseOne n).1.alive ≤ store.alive ∧ (store.releaseOne n).2 = [] := by
  unfold releaseOne
  split
  · exact Or.inr ⟨Nat.le_refl _, rfl⟩
  · next node hnode =>
    split
    · next hlast =>
      have hmodify := alive_modify hnode fun node => { node with count := 0, fields := ∅ }
      rw [hlast, if_pos Nat.one_pos, if_neg (Nat.lt_irrefl 0)] at hmodify
      exact Or.inl (Nat.lt_of_succ_le (Nat.le_of_eq hmodify))
    · have hmodify := alive_modify hnode fun node => { node with count := node.count - 1 }
      refine Or.inr ⟨?_, rfl⟩
      dsimp only at hmodify ⊢
      split at hmodify <;> split at hmodify <;> omega

/-- Handles go, one after the other. What goes with a destroyed node goes before the rest. -/
def release (store : NodeStore α) : List Handle → NodeStore α
  | [] => store
  | none :: rest => store.release rest
  | some n :: rest => (store.releaseOne n).1.release ((store.releaseOne n).2 ++ rest)
termination_by handles => (store.alive, handles.length)
decreasing_by
  · exact .right _ (Nat.lt_succ_self _)
  · obtain hless | ⟨hle, hnil⟩ := store.releaseOne_alive n
    · exact .left _ _ hless
    · rw [hnil, List.nil_append]
      rcases Nat.lt_or_eq_of_le hle with hless | heq
      · exact .left _ _ hless
      · rw [heq]
        exact .right _ (Nat.lt_succ_self _)

/-- The handle that a weak reference gives: null if the node is destroyed. -/
def upgrade (store : NodeStore α) (weak : Handle) : Handle :=
  if store.count weak == 0 then none else weak

end NodeStore

/-- Where a handle is kept: under a name, in a node or, without one, among the slots. -/
structure Cell where
  node : Option Nat
  name : String
deriving Repr, DecidableEq

/-- How a handle is reached: in a slot, or in a field of the node that the handle at another place
    points at. -/
inductive Place where
  | slot (name : String)
  | field (owner : Place) (name : String)
deriving Repr, DecidableEq

instance : Coe String Place := ⟨.slot⟩

/-- Handles and weak references under their names. -/
structure Handles (α : Type) where
  store : NodeStore α := {}
  slots : HandleTable := ∅
  weak : HandleTable := ∅
deriving Inhabited

/-- What can be done with handles. -/
inductive HandleStep (α : Type) where
  /-- A handle to a new node. -/
  | create (place : Place) (value : α)
  | null (place : Place)
  | copy (place source : Place)
  /-- Points the handle at `place` where that at `source` points. -/
  | retarget (place source : Place)
  /-- Makes the handle at `place` null. -/
  | clear (place : Place)
  /-- Moves the handle at `source` to `place`, where the same node is seen as one of a related type. -/
  | upcast (place source : Place)
  /-- Gives the slot up with its handle. -/
  | drop (slot : String)
  | downgrade (weak : String) (source : Place)
  | upgrade (place : Place) (weak : String)
  /-- Looks at the node that the handle points at. -/
  | read (place : Place)
  /-- Compares two handles. -/
  | compare (place other : Place)
deriving Repr

/-- What a step shows. -/
inductive HandleAnswer (α : Type) where
  | nothing
  | value (a : α)
  | same (equal : Bool)
  /-- A null handle points at no node that could be looked at. -/
  | nullHandle
deriving Repr

namespace Handles

variable {α : Type}

/-- The handles of a node or, without one, of the slots. -/
def table (h : Handles α) : Option Nat → HandleTable
  | none => h.slots
  | some n => h.store.fields n

/-- Replaces the handles of a node or of the slots. -/
def setTable (h : Handles α) (node : Option Nat) (table : HandleTable) : Handles α :=
  match node with
  | none => { h with slots := table }
  | some n => { h with store := h.store.modify n fun node => { node with fields := table } }

/-- The handle of a cell; null, if there is none. -/
def get (h : Handles α) (cell : Cell) : Handle := (h.table cell.node).getD cell.name none

/-- Puts a handle into an empty cell. -/
def set (h : Handles α) (cell : Cell) (new : Handle) : Handles α :=
  h.setTable cell.node ((h.table cell.node).insert cell.name new)

/-- Takes the handle out of a cell. -/
def take (h : Handles α) (cell : Cell) : Handles α :=
  h.setTable cell.node ((h.table cell.node).erase cell.name)

/-- The cell at a place. There is none behind a null handle. -/
def cell? (h : Handles α) : Place → Option Cell
  | .slot name => some ⟨none, name⟩
  | .field owner name => do
    let cell ← h.cell? owner
    let n ← h.get cell
    return ⟨some n, name⟩

/-- One more handle points where `handle` does; it is still to be kept somewhere. -/
def acquire (h : Handles α) (handle : Handle) : Handles α :=
  { h with store := h.store.acquire handle }

/-- A handle goes that is no longer kept anywhere. -/
def release (h : Handles α) (handle : Handle) : Handles α :=
  { h with store := h.store.release [handle] }

/-- The handle of a cell goes. -/
def vacate (h : Handles α) (cell : Cell) : Handles α := (h.take cell).release (h.get cell)

/-- Puts a handle into a cell, from which the old one goes. -/
def put (h : Handles α) (cell : Cell) (new : Handle) : Handles α := (h.vacate cell).set cell new

/-- Points the handle of a cell where another one points. It lets go of the old node first. -/
def retarget (h : Handles α) (cell other : Cell) : Handles α :=
  let vacated := h.vacate cell
  let new := vacated.get other
  (vacated.acquire new).set cell new

/-- What a step shows and leaves behind, if it is possible: what it is about must not lie behind a null
    handle, nor the source of re-targeting behind the handle that is changed. Re-targeting leaves a handle
    that points there already alone. -/
def step? (h : Handles α) : HandleStep α → Option (HandleAnswer α × Handles α)
  | .create place value => do
    let cell ← h.cell? place
    let (new, store) := h.store.create value
    return (.nothing, { h with store }.put cell new)
  | .null place => do
    let cell ← h.cell? place
    return (.nothing, h.put cell none)
  | .copy place source => do
    let cell ← h.cell? place
    let other ← h.cell? source
    let new := h.get other
    return (.nothing, (h.acquire new).put cell new)
  | .retarget place source => do
    let cell ← h.cell? place
    -- The handle that is changed may be the last one of its node: what is kept behind it goes too early.
    let other ← (h.take cell).cell? source
    return (.nothing, if h.get cell == h.get other then h else h.retarget cell other)
  | .clear place => do
    let cell ← h.cell? place
    return (.nothing, h.put cell none)
  | .upcast place source => do
    let other ← h.cell? source
    let taken := h.take other
    let cell ← taken.cell? place
    return (.nothing, taken.put cell (h.get other))
  | .drop slot => return (.nothing, h.vacate ⟨none, slot⟩)
  | .downgrade weak source => do
    let other ← h.cell? source
    return (.nothing, { h with weak := h.weak.insert weak (h.get other) })
  | .upgrade place weak => do
    let cell ← h.cell? place
    let new := h.store.upgrade (h.weak.getD weak none)
    return (.nothing, (h.acquire new).put cell new)
  | .read place => do
    let cell ← h.cell? place
    let value ← h.store.value? (h.get cell)
    return (.value value, h)
  | .compare place other => do
    let cell ← h.cell? place
    let cell' ← h.cell? other
    return (.same (h.get cell == h.get cell'), h)

/-- Carries out a step; nothing changes if it is not possible. -/
def step (h : Handles α) (s : HandleStep α) : HandleAnswer α × Handles α :=
  (h.step? s).getD (.nullHandle, h)

/-- Carries out steps, one after the other. -/
def after (h : Handles α) (steps : List (HandleStep α)) : Handles α :=
  steps.foldl (fun h s => (h.step s).2) h

end Handles

end FlatDae
