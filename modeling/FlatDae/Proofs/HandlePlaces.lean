/-
Module: FlatDae.Proofs.HandlePlaces
Purpose: Where handles are kept and how they are reached. Taking a handle out of its cell, putting one into
  it and letting one go keep the counts of the nodes right, with the handles that are on their way from one
  cell to another in the hand. A release leaves alone whatever is still reached, so that a handle may let go
  of its old node before it takes hold of the new one.
Main exports: Handles.live, Handles.cell?_take, Handles.Accounts, Handles.Accounts.cell?_release,
  Handles.Accounts.put, Handles.Accounts.retarget
-/
import FlatDae.Proofs.NodeCounts

namespace FlatDae

namespace Handles

variable {α : Type} {h : Handles α} {cell other : Cell} {place : Place} {node : Option Nat}
  {table : HandleTable} {new old : Handle} {hand hand' : List Handle} {n : Nat}

/-! ### Cells -/

/-- All handles there are: those in slots and those in the fields of nodes. -/
def live (h : Handles α) : List Handle := h.slots.handles ++ h.store.held

theorem mem_live (hget : h.get cell = some n) : some n ∈ h.live := by
  obtain ⟨node, name⟩ := cell
  cases node with
  | none => exact List.mem_append_left _ (HandleTable.mem_handles hget)
  | some _ => exact List.mem_append_right _ (NodeStore.mem_held (HandleTable.mem_handles hget))

/-- The node in which the handle is kept, if it is kept in one, is not destroyed. -/
def Intact (h : Handles α) (node : Option Nat) : Prop :=
  ∀ n, node = some n → h.store.count (some n) ≠ 0

theorem table_setTable (hnode : h.Intact node) (table : HandleTable) (other : Option Nat) :
    (h.setTable node table).table other = if other = node then table else h.table other := by
  cases node with
  | none => cases other <;> rfl
  | some n =>
      obtain ⟨stored, hstored⟩ := NodeStore.exists_node (hnode n rfl)
      cases other with
      | none => rfl
      | some m =>
          by_cases heq : m = n
          · subst heq
            rw [if_pos rfl]
            exact NodeStore.fields_modify_self hstored
          · rw [if_neg (by simpa using heq)]
            exact NodeStore.fields_modify_of_ne (Ne.symm heq)

/-- Changing a table under one name changes one cell. -/
theorem get_setTable (hnode : h.Intact cell.node) (new : Handle)
    (htable : ∀ name, table.getD name none =
      if name = cell.name then new else (h.table cell.node).getD name none) (other : Cell) :
    (h.setTable cell.node table).get other = if other = cell then new else h.get other := by
  obtain ⟨node, name⟩ := cell
  obtain ⟨node', name'⟩ := other
  simp only [get, table_setTable hnode, Cell.mk.injEq]
  by_cases hsame : node' = node
  · rw [if_pos hsame, htable, hsame]
    simp
  · rw [if_neg hsame, if_neg fun heq => hsame heq.1]

theorem get_take (hnode : h.Intact cell.node) (other : Cell) :
    (h.take cell).get other = if other = cell then none else h.get other := by
  refine get_setTable hnode none (fun name => ?_) other
  simp only [Std.TreeMap.getD_erase, Std.LawfulEqCmp.compare_eq_iff_eq, eq_comm (a := name)]

theorem get_set (hnode : h.Intact cell.node) (new : Handle) (other : Cell) :
    (h.set cell new).get other = if other = cell then new else h.get other := by
  refine get_setTable hnode new (fun name => ?_) other
  simp only [Std.TreeMap.getD_insert, Std.LawfulEqCmp.compare_eq_iff_eq, eq_comm (a := name)]

/-! ### Places -/

theorem cell?_field {owner : Place} {name : String} :
    h.cell? (.field owner name) = some cell ↔
      ∃ keeper, h.cell? owner = some keeper ∧ ∃ n, h.get keeper = some n ∧ ⟨some n, name⟩ = cell := by
  simp [cell?, Option.bind_eq_some_iff]

/-- What is reached does not depend on anything but the tables. -/
theorem cell?_congr {h' : Handles α} (htable : ∀ node, h'.table node = h.table node) (place : Place) :
    h'.cell? place = h.cell? place := by
  induction place with
  | slot name => rfl
  | field owner name ih => simp [cell?, ih, get, htable]

/-- Emptying a cell cuts off no more than what lies behind it; in front of what lies behind it the cell itself
    is reached. -/
theorem cell?_take (hnode : h.Intact cell.node) (hplace : h.cell? place = some other) :
    (h.take cell).cell? place = some other ∨ ∃ place', (h.take cell).cell? place' = some cell := by
  induction place generalizing other with
  | slot name => exact Or.inl hplace
  | field owner name ih =>
      obtain ⟨keeper, howner, n, hget, rfl⟩ := cell?_field.1 hplace
      rcases ih howner with howner' | hfound
      · by_cases heq : keeper = cell
        · exact Or.inr ⟨owner, heq ▸ howner'⟩
        · have hget' : (h.take cell).get keeper = some n := by rw [get_take hnode, if_neg heq, hget]
          exact Or.inl (cell?_field.2 ⟨keeper, howner', n, hget', rfl⟩)
      · exact Or.inr hfound

/-- A cell that is emptied is still reached, if only by a shorter way. -/
theorem exists_cell?_take (hnode : h.Intact cell.node) (hplace : h.cell? place = some cell) :
    ∃ place', (h.take cell).cell? place' = some cell :=
  (cell?_take hnode hplace).elim (fun hplace' => ⟨place, hplace'⟩) id

@[simp] theorem table_acquire (h : Handles α) (new : Handle) (node : Option Nat) :
    (h.acquire new).table node = h.table node := by
  cases node with
  | none => rfl
  | some n => exact NodeStore.fields_acquire h.store new n

theorem cell?_acquire (h : Handles α) (new : Handle) (place : Place) :
    (h.acquire new).cell? place = h.cell? place := cell?_congr (table_acquire h new) place

theorem get_acquire (h : Handles α) (new : Handle) (cell : Cell) :
    (h.acquire new).get cell = h.get cell := by
  rw [get, table_acquire, get]

/-! ### Right counts -/

/-- The counts are right if, besides the handles that are kept somewhere, there are those in the hand. -/
def Accounts (h : Handles α) (hand : List Handle) : Prop := h.store.Accounts (hand ++ h.slots.handles)

namespace Accounts

theorem count_eq (ha : h.Accounts hand) (n : Nat) :
    h.store.count (some n) = (hand ++ h.live).count (some n) := by
  rw [NodeStore.Accounts.count_eq ha, List.append_assoc]
  rfl

theorem count_ne_zero (ha : h.Accounts hand) (hmem : some n ∈ hand ++ h.live) :
    h.store.count (some n) ≠ 0 := by
  rw [ha.count_eq]
  exact Nat.ne_of_gt (List.count_pos_iff.2 hmem)

/-- Cells that are reached are in nodes that are not destroyed. -/
theorem intact (ha : h.Accounts hand) (hplace : h.cell? place = some cell) : h.Intact cell.node := by
  rintro n hnode
  cases place with
  | slot name =>
      cases hplace
      cases hnode
  | field owner name =>
      obtain ⟨keeper, -, m, hget, rfl⟩ := cell?_field.1 hplace
      cases hnode
      exact ha.count_ne_zero (List.mem_append_right _ (mem_live hget))

theorem setTable (ha : h.Accounts hand) (hnode : h.Intact node)
    (hcount : ∀ m, (hand' ++ table.handles).count (some m) =
      (hand ++ (h.table node).handles).count (some m)) : (h.setTable node table).Accounts hand' := by
  cases node with
  | none => exact NodeStore.Accounts.congr ha hcount
  | some n =>
      refine NodeStore.Accounts.setFields ha (hnode n rfl) fun m => ?_
      have hm : _ = (hand ++ (h.store.fields n).handles).count (some m) := hcount m
      change (hand' ++ h.slots.handles ++ table.handles).count (some m) = _
      simp only [List.count_append] at hm ⊢
      omega

theorem take (ha : h.Accounts hand) (hnode : h.Intact cell.node) :
    (h.take cell).Accounts (h.get cell :: hand) := by
  refine ha.setTable hnode fun m => ?_
  have herase := HandleTable.count_erase (h.table cell.node) cell.name m
  simp only [get, List.count_append, List.count_cons] at herase ⊢
  omega

/-- A handle from the hand is put into an empty cell. -/
theorem set (ha : h.Accounts (new :: hand)) (hnode : h.Intact cell.node) (hempty : h.get cell = none) :
    (h.set cell new).Accounts hand := by
  refine ha.setTable hnode fun m => ?_
  have hinsert := (HandleTable.handles_insert_perm (h.table cell.node) cell.name new).count_eq (some m)
  have herase := HandleTable.count_erase (h.table cell.node) cell.name m
  rw [show (h.table cell.node).getD cell.name none = none from hempty, Handle.count_null_cons] at herase
  simp only [List.count_append, List.count_cons] at hinsert ⊢
  omega

theorem null (ha : h.Accounts hand) : h.Accounts (none :: hand) :=
  NodeStore.Accounts.congr ha (Handle.count_null_cons _)

theorem acquire (ha : h.Accounts hand) (halive : ∀ n, new = some n → h.store.count (some n) ≠ 0) :
    (h.acquire new).Accounts (new :: hand) :=
  NodeStore.Accounts.acquire ha halive

theorem release (ha : h.Accounts (old :: hand)) : (h.release old).Accounts hand := by
  have hgone : h.store.Accounts ([old] ++ (hand ++ h.slots.handles)) := ha
  exact hgone.release

/-- A release leaves alone what is still reached. -/
theorem cell?_release (ha : h.Accounts (old :: hand)) (hplace : h.cell? place = some cell) :
    (h.release old).cell? place = some cell ∧ (h.release old).get cell = h.get cell := by
  -- By induction on the way to the cell: the handle in front of it still points at its node, so that the
  -- node is not destroyed and keeps its fields.
  have hremains := NodeStore.Remains.release h.store [old]
  induction place generalizing cell with
  | slot name =>
      cases hplace
      exact ⟨rfl, rfl⟩
  | field owner name ih =>
      obtain ⟨keeper, howner, n, hget, rfl⟩ := cell?_field.1 hplace
      obtain ⟨howner', hget'⟩ := ih howner
      have hfield : (h.release old).cell? (.field owner name) = some ⟨some n, name⟩ :=
        cell?_field.2 ⟨keeper, howner', n, hget'.trans hget, rfl⟩
      refine ⟨hfield, ?_⟩
      have hfields := hremains.fields_eq n (ha.release.intact hfield n rfl)
      exact congrArg (fun table : HandleTable => table.getD name none) hfields

theorem vacate (ha : h.Accounts hand) (hnode : h.Intact cell.node) : (h.vacate cell).Accounts hand :=
  (ha.take hnode).release

/-- What is not behind the handle that goes is still reached. -/
theorem cell?_vacate (ha : h.Accounts hand) (hnode : h.Intact cell.node)
    (hplace : (h.take cell).cell? place = some other) :
    (h.vacate cell).cell? place = some other ∧
      (h.vacate cell).get other = if other = cell then none else h.get other := by
  obtain ⟨hplace', hget⟩ := (ha.take hnode).cell?_release hplace
  exact ⟨hplace', hget.trans (get_take hnode other)⟩

/-- The cell itself is still reached, and empty. -/
theorem exists_cell?_vacate (ha : h.Accounts hand) (hplace : h.cell? place = some cell) :
    (∃ place', (h.vacate cell).cell? place' = some cell) ∧ (h.vacate cell).get cell = none := by
  have hnode := ha.intact hplace
  obtain ⟨place', hplace'⟩ := exists_cell?_take hnode hplace
  obtain ⟨hreached, hempty⟩ := ha.cell?_vacate hnode hplace'
  exact ⟨⟨place', hreached⟩, hempty.trans (if_pos rfl)⟩

/-- The handle in the hand is in the cell afterwards. -/
theorem put (ha : h.Accounts (new :: hand)) (hplace : h.cell? place = some cell) :
    (h.put cell new).Accounts hand ∧ (h.put cell new).get cell = new := by
  obtain ⟨⟨place', hreached⟩, hempty⟩ := ha.exists_cell?_vacate hplace
  have hvacated := ha.vacate (ha.intact hplace)
  have hnode := hvacated.intact hreached
  exact ⟨hvacated.set hnode hempty, by rw [Handles.put, get_set hnode, if_pos rfl]⟩

/-- Letting go of the old node first is safe: the other handle is not behind the one that is changed, so
    that it still points at its node, and that node is not destroyed. -/
theorem retarget {source : Place} (ha : h.Accounts hand) (hplace : h.cell? place = some cell)
    (hsource : (h.take cell).cell? source = some other) (hne : h.get cell ≠ h.get other) :
    (h.retarget cell other).Accounts hand ∧ (h.retarget cell other).get cell = h.get other ∧
      (h.retarget cell other).get other = h.get other := by
  have hother : other ≠ cell := by
    rintro rfl
    exact hne rfl
  have hvacated := ha.vacate (ha.intact hplace)
  obtain ⟨-, hget⟩ := ha.cell?_vacate (ha.intact hplace) hsource
  obtain ⟨⟨place', hreached⟩, hempty⟩ := ha.exists_cell?_vacate hplace
  rw [if_neg hother] at hget
  have hacquired : ((h.vacate cell).acquire (h.get other)).Accounts (h.get other :: hand) :=
    hvacated.acquire fun n heq =>
      hvacated.count_ne_zero (List.mem_append_right _ (mem_live (hget.trans heq)))
  have hnode := hacquired.intact ((cell?_acquire _ _ _).trans hreached)
  have hretarget : h.retarget cell other =
      ((h.vacate cell).acquire (h.get other)).set cell (h.get other) := by
    rw [Handles.retarget, hget]
  rw [hretarget, get_set hnode, get_set hnode, if_pos rfl, if_neg hother, get_acquire, hget]
  exact ⟨hacquired.set hnode ((get_acquire _ _ _).trans hempty), rfl, rfl⟩

end Accounts

end Handles

end FlatDae
