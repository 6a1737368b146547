/-
Module: FlatDae.Proofs.HandleRuns
Purpose: What holds of handles after any steps. Each node counts the handles that point at it, it is destroyed
  in the step in which the last of them goes, and a weak reference to it gives a handle until then.
Main exports: Handles.Sound, Handles.Follows, Handles.Sound.step, Handles.Sound.after, Handles.after_counted
-/
import FlatDae.Proofs.HandlePlaces

namespace FlatDae

namespace Handles

variable {α : Type} {h h' : Handles α} {cell other : Cell} {place : Place} {new : Handle} {n : Nat}

/-! ### One step -/

/-- No node and no weak reference is made, and what is destroyed stays destroyed. -/
structure Keeps (h h' : Handles α) : Prop where
  size_eq : h'.store.nodes.size = h.store.nodes.size
  weak_eq : h'.weak = h.weak
  freed_prefix : h.store.freed.toList <+: h'.store.freed.toList

namespace Keeps

theorem refl (h : Handles α) : Keeps h h := ⟨rfl, rfl, List.prefix_rfl⟩

theorem trans {h'' : Handles α} (hk : Keeps h h') (hk' : Keeps h' h'') : Keeps h h'' :=
  ⟨hk'.size_eq.trans hk.size_eq, hk'.weak_eq.trans hk.weak_eq, hk.freed_prefix.trans hk'.freed_prefix⟩

theorem setTable (h : Handles α) (node : Option Nat) (table : HandleTable) :
    Keeps h (h.setTable node table) := by
  cases node with
  | none => exact ⟨rfl, rfl, List.prefix_rfl⟩
  | some n => exact ⟨NodeStore.size_modify h.store n _, rfl, List.prefix_rfl⟩

theorem acquire (h : Handles α) (new : Handle) : Keeps h (h.acquire new) :=
  ⟨NodeStore.size_acquire h.store new, rfl, NodeStore.freed_acquire h.store new ▸ List.prefix_rfl⟩

theorem vacate (h : Handles α) (cell : Cell) : Keeps h (h.vacate cell) := by
  have hremains := NodeStore.Remains.release (h.take cell).store [h.get cell]
  exact (setTable h cell.node _).trans ⟨hremains.size_eq, rfl, hremains.freed_prefix⟩

theorem put (h : Handles α) (cell : Cell) (new : Handle) : Keeps h (h.put cell new) :=
  (vacate h cell).trans (setTable _ cell.node _)

theorem retarget (h : Handles α) (cell other : Cell) : Keeps h (h.retarget cell other) :=
  (vacate h cell).trans ((acquire _ _).trans (setTable _ cell.node _))

end Keeps

/-- Between steps no handle is in the hand, and weak references are to nodes that were made. -/
structure Sound (h : Handles α) : Prop where
  accounts : h.Accounts []
  weak_made : ∀ name n, h.weak.getD name none = some n → n < h.store.nodes.size

/-- What a step leads to: destroyed nodes stay destroyed, and new ones have a handle. -/
structure Follows (h h' : Handles α) : Prop where
  sound : h'.Sound
  freed_prefix : h.store.freed.toList <+: h'.store.freed.toList
  size_le : h.store.nodes.size ≤ h'.store.nodes.size
  made : ∀ n, h.store.nodes.size ≤ n → n < h'.store.nodes.size → some n ∈ h'.live

namespace Sound

theorem follows (hs : h.Sound) (hk : Keeps h h') (ha : h'.Accounts []) :
    Follows h h' where
  sound :=
    { accounts := ha
      weak_made := by
        rw [hk.weak_eq, hk.size_eq]
        exact hs.weak_made }
  freed_prefix := hk.freed_prefix
  size_le := Nat.le_of_eq hk.size_eq.symm
  made := fun n hle hlt => absurd (hk.size_eq ▸ hlt) (Nat.not_lt.2 hle)

theorem create (hs : h.Sound) (value : α) (hplace : h.cell? place = some cell) :
    Follows h ({ h with store := (h.store.create value).2 }.put cell (h.store.create value).1) := by
  have ha : Accounts { h with store := (h.store.create value).2 } [(h.store.create value).1] :=
    NodeStore.Accounts.create hs.accounts value
  have hplace' : cell? { h with store := (h.store.create value).2 } place = some cell := by
    refine (cell?_congr ?_ place).trans hplace
    rintro (_ | n)
    · rfl
    · exact NodeStore.fields_create h.store value n
  have hsize : (h.store.create value).2.nodes.size = h.store.nodes.size + 1 := NodeStore.size_create _ _
  obtain ⟨haccounts, hget⟩ := ha.put hplace'
  have hk := Keeps.put { h with store := (h.store.create value).2 } cell (h.store.create value).1
  refine ⟨⟨haccounts, fun name n hweak => ?_⟩, hk.freed_prefix, ?_, fun n hle hlt => ?_⟩
  · rw [hk.weak_eq] at hweak
    rw [hk.size_eq, hsize]
    exact Nat.lt_succ_of_lt (hs.weak_made name n hweak)
  · rw [hk.size_eq, hsize]
    exact Nat.le_succ _
  · rw [hk.size_eq, hsize] at hlt
    obtain rfl : h.store.nodes.size = n := Nat.le_antisymm hle (Nat.le_of_lt_succ hlt)
    exact mem_live hget

/-- A handle that is copied into a cell points at a node that is not destroyed. -/
theorem copy (hs : h.Sound) (hplace : h.cell? place = some cell)
    (halive : ∀ n, new = some n → h.store.count (some n) ≠ 0) :
    Follows h ((h.acquire new).put cell new) :=
  hs.follows ((Keeps.acquire h new).trans (Keeps.put _ cell new))
    ((hs.accounts.acquire halive).put ((cell?_acquire h new place).trans hplace)).1

theorem downgrade (hs : h.Sound) (weak : String) (cell : Cell) :
    Follows h { h with weak := h.weak.insert weak (h.get cell) } := by
  refine ⟨⟨hs.accounts, fun name n hweak => ?_⟩, List.prefix_rfl, Nat.le_refl _,
    fun n hle hlt => absurd hlt (Nat.not_lt.2 hle)⟩
  dsimp only at hweak ⊢
  rw [Std.TreeMap.getD_insert] at hweak
  split at hweak
  · exact NodeStore.lt_size (hs.accounts.count_ne_zero (List.mem_append_right _ (mem_live hweak)))
  · exact hs.weak_made name n hweak

end Sound

/-- What a step leads to, by cases on the step. -/
theorem Sound.step? {s : HandleStep α} {answer : HandleAnswer α} (hs : h.Sound)
    (hstep : h.step? s = some (answer, h')) : Follows h h' := by
  have ha := hs.accounts
  cases s <;>
    simp only [Handles.step?, Option.bind_eq_bind, Option.bind_eq_some_iff, Option.pure_def,
      Option.some.injEq, Prod.mk.injEq] at hstep
  case create place value =>
    obtain ⟨cell, hcell, rfl, rfl⟩ := hstep
    exact hs.create value hcell
  case null place | clear place =>
    obtain ⟨cell, hcell, rfl, rfl⟩ := hstep
    exact hs.follows (Keeps.put h cell none) (ha.null.put hcell).1
  case copy place source =>
    obtain ⟨cell, hcell, other, -, rfl, rfl⟩ := hstep
    exact hs.copy hcell fun n hget => ha.count_ne_zero (mem_live hget)
  case retarget place source =>
    obtain ⟨cell, hcell, other, hother, rfl, rfl⟩ := hstep
    split
    · exact hs.follows (Keeps.refl h) ha
    · next hne =>
      rw [beq_iff_eq] at hne
      exact hs.follows (Keeps.retarget h cell other) (ha.retarget hcell hother hne).1
  case upcast place source =>
    obtain ⟨other, hother, cell, hcell, rfl, rfl⟩ := hstep
    have htaken := ha.take (ha.intact hother)
    exact hs.follows ((Keeps.setTable h other.node _).trans (Keeps.put _ cell _)) (htaken.put hcell).1
  case drop slot =>
    obtain ⟨rfl, rfl⟩ := hstep
    exact hs.follows (Keeps.vacate h _) (ha.vacate nofun)
  case downgrade weak source =>
    obtain ⟨other, -, rfl, rfl⟩ := hstep
    exact hs.downgrade weak other
  case upgrade place weak =>
    obtain ⟨cell, hcell, rfl, rfl⟩ := hstep
    exact hs.copy hcell fun n hget => (NodeStore.upgrade_eq_some_iff.1 hget).2
  case read place =>
    obtain ⟨cell, -, value, -, rfl, rfl⟩ := hstep
    exact hs.follows (Keeps.refl h) ha
  case compare place other =>
    obtain ⟨cell, -, cell', -, rfl, rfl⟩ := hstep
    exact hs.follows (Keeps.refl h) ha

/-! ### Any number of steps -/

theorem Sound.step (hs : h.Sound) (s : HandleStep α) : Follows h (h.step s).2 := by
  rw [Handles.step]
  cases hstep : h.step? s with
  | none => exact hs.follows (Keeps.refl h) hs.accounts
  | some result => exact hs.step? hstep

theorem sound_empty : ({} : Handles α).Sound where
  accounts := NodeStore.Accounts.empty
  weak_made := by simp

theorem Sound.after (hs : h.Sound) (steps : List (HandleStep α)) : (h.after steps).Sound := by
  induction steps generalizing h with
  | nil => exact hs
  | cons s steps ih => exact ih (hs.step s).sound

theorem Sound.mem_freed_iff (hs : h.Sound) :
    n ∈ h.store.freed ↔ n < h.store.nodes.size ∧ some n ∉ h.live := by
  rw [hs.accounts.mem_freed, hs.accounts.count_eq, List.nil_append, List.count_eq_zero]

theorem Sound.count_ne_zero (hs : h.Sound) (hmem : some n ∈ h.live) : h.store.count (some n) ≠ 0 :=
  hs.accounts.count_ne_zero (List.mem_append_right _ hmem)

/-- A node is destroyed in the step in which the last handle to it goes. -/
theorem Follows.mem_freed_iff (hs : h.Sound) (hf : Follows h h') :
    n ∈ h'.store.freed ↔ n ∈ h.store.freed ∨ some n ∈ h.live ∧ some n ∉ h'.live := by
  constructor
  · intro hfreed
    obtain ⟨hlt, hgone⟩ := hf.sound.mem_freed_iff.1 hfreed
    have hmade : n < h.store.nodes.size := by
      by_contra hnew
      exact hgone (hf.made n (Nat.not_lt.1 hnew) hlt)
    by_cases hlive : some n ∈ h.live
    · exact Or.inr ⟨hlive, hgone⟩
    · exact Or.inl (hs.mem_freed_iff.2 ⟨hmade, hlive⟩)
  · rintro (hfreed | ⟨hlive, hgone⟩)
    · exact Array.mem_toList_iff.1 (hf.freed_prefix.subset (Array.mem_toList_iff.2 hfreed))
    · have hmade := NodeStore.lt_size (hs.count_ne_zero hlive)
      exact hf.sound.mem_freed_iff.2 ⟨Nat.lt_of_lt_of_le hmade hf.size_le, hgone⟩

/-! ### What handles and weak references point at -/

variable {source : Place} {weak : String}

theorem step_compare (hplace : h.cell? place = some cell) (hsource : h.cell? source = some other) :
    (h.step (.compare place source)).1 = .same (h.get cell == h.get other) := by
  simp [step, step?, hplace, hsource]

theorem step_downgrade (hsource : h.cell? source = some other) (weak : String) :
    (h.step (.downgrade weak source)).2.weak.getD weak none = h.get other := by
  simp [step, step?, hsource]

namespace Sound

/-- What a weak reference gives is put into the cell. -/
theorem get_step_upgrade (hs : h.Sound) (hplace : h.cell? place = some cell) (weak : String) :
    (h.step (.upgrade place weak)).2.get cell = h.store.upgrade (h.weak.getD weak none) := by
  have hstep : (h.step (.upgrade place weak)).2 =
      (h.acquire (h.store.upgrade (h.weak.getD weak none))).put cell
        (h.store.upgrade (h.weak.getD weak none)) := by
    simp [Handles.step, Handles.step?, hplace]
  rw [hstep]
  exact ((hs.accounts.acquire fun n hget => (NodeStore.upgrade_eq_some_iff.1 hget).2).put
    ((cell?_acquire h _ place).trans hplace)).2

theorem get_step_retarget (hs : h.Sound) (hplace : h.cell? place = some cell)
    (hsource : (h.take cell).cell? source = some other) :
    (h.step (.retarget place source)).2.get cell = h.get other ∧
      (h.step (.retarget place source)).2.get other = h.get other := by
  have hstep : (h.step (.retarget place source)).2 =
      if h.get cell == h.get other then h else h.retarget cell other := by
    simp [Handles.step, Handles.step?, hplace, hsource]
  rw [hstep]
  split
  · next heq => exact ⟨beq_iff_eq.1 heq, rfl⟩
  · next hne =>
    rw [beq_iff_eq] at hne
    exact (hs.accounts.retarget hplace hsource hne).2

/-- A weak reference gives a handle until the node is destroyed. -/
theorem upgrade_eq (hs : h.Sound) (hweak : h.weak.getD weak none = some n) :
    h.store.upgrade (some n) = if n ∈ h.store.freed then none else some n := by
  have hmade := hs.weak_made weak n hweak
  split
  · next hfreed =>
    refine Option.eq_none_iff_forall_ne_some.2 fun m hget => ?_
    obtain ⟨heq, hcount⟩ := NodeStore.upgrade_eq_some_iff.1 hget
    cases heq
    exact hcount ((hs.accounts.mem_freed n).1 hfreed).2
  · next hkept =>
    refine NodeStore.upgrade_eq_some_iff.2 ⟨rfl, fun hcount => hkept ?_⟩
    exact (hs.accounts.mem_freed n).2 ⟨hmade, hcount⟩

end Sound

/-- After any steps, starting with nothing:

    * a node counts the handles that point at it, and a null handle counts none;
    * no node is destroyed twice, those that are destroyed are the ones that were made and that no handle
      points at, they are destroyed in the step in which the last handle goes, and their fields are gone;
    * two handles are the same if they point at the same node or are both null;
    * a weak reference is to the node that the handle pointed at from which it was made, and gives a null
      handle if that node is destroyed, or if there was none;
    * re-targeting makes a handle point where another one points that does not lie behind it, and that one
      still points there. -/
theorem after_counted (steps : List (HandleStep α)) :
    let h := ({} : Handles α).after steps
    ((∀ n, h.store.count (some n) = h.live.count (some n)) ∧ h.store.count none = 0) ∧
    (h.store.freed.toList.Nodup ∧
      (∀ n, n ∈ h.store.freed ↔ n < h.store.nodes.size ∧ some n ∉ h.live) ∧
      (∀ s n, n ∈ (h.step s).2.store.freed ↔
        n ∈ h.store.freed ∨ some n ∈ h.live ∧ some n ∉ (h.step s).2.live) ∧
      ∀ n ∈ h.store.freed, h.store.fields n = ∅) ∧
    ∀ place cell, h.cell? place = some cell →
      (∀ source other, h.cell? source = some other →
        ((h.step (.compare place source)).1 = .same true ↔
          h.get cell = none ∧ h.get other = none ∨ ∃ n, h.get cell = some n ∧ h.get other = some n)) ∧
      (∀ weak, (h.step (.downgrade weak place)).2.weak.getD weak none = h.get cell) ∧
      (∀ weak n, h.weak.getD weak none = some n → n < h.store.nodes.size ∧
        (h.step (.upgrade place weak)).2.get cell = if n ∈ h.store.freed then none else some n) ∧
      (∀ weak, h.weak.getD weak none = none → (h.step (.upgrade place weak)).2.get cell = none) ∧
      ∀ source other, (h.take cell).cell? source = some other →
        (h.step (.retarget place source)).2.get cell = h.get other ∧
          (h.step (.retarget place source)).2.get other = h.get other := by
  intro h
  have hs : h.Sound := sound_empty.after steps
  refine ⟨⟨hs.accounts.count_eq, rfl⟩, ⟨hs.accounts.freed_nodup, fun n => hs.mem_freed_iff,
    fun s n => (hs.step s).mem_freed_iff hs, hs.accounts.fields_freed⟩, fun place cell hplace => ?_⟩
  refine ⟨fun source other hsource => ?_, step_downgrade hplace, fun weak n hweak => ?_,
    fun weak hweak => ?_, fun source other hsource => hs.get_step_retarget hplace hsource⟩
  · rw [step_compare hplace hsource, HandleAnswer.same.injEq, beq_iff_eq]
    constructor
    · intro heq
      rw [heq]
      cases h.get other <;> simp
    · rintro (⟨hcell, hother⟩ | ⟨n, hcell, hother⟩) <;> rw [hcell, hother]
  · rw [hs.get_step_upgrade hplace, hweak]
    exact ⟨hs.weak_made weak n hweak, hs.upgrade_eq hweak⟩
  · rw [hs.get_step_upgrade hplace, hweak]
    rfl

/-- A chain of two nodes, from which the first one is taken: the handle `a` is to point at what `c`, a copy of
    the handle `b` within the first node, points at. The weak references `v` and `w` are to the two nodes. -/
def shortenedChain : List (HandleStep String) :=
  [.create "a" "head", .create (.field "a" "b") "tail", .downgrade "v" "a",
    .downgrade "w" (.field "a" "b"), .copy "c" (.field "a" "b"), .retarget "a" "c"]

def shortened : Handles String := ({} : Handles String).after shortenedChain

/-- The first node is destroyed together with the handle within it, and only the weak reference to the second
    one still gives a handle. -/
theorem after_counted_shortenedChain :
    0 ∈ shortened.store.freed ∧ shortened.live = [some 1, some 1] ∧
      shortened.store.count (some 1) = 2 ∧
      (shortened.step (.upgrade "d" "v")).2.get ⟨none, "d"⟩ = none ∧
      (shortened.step (.upgrade "d" "w")).2.get ⟨none, "d"⟩ = some 1 ∧
      (shortened.step (.compare "a" "c")).1 = .same true := by
  obtain ⟨⟨hcount, -⟩, ⟨-, hfreed, -, -⟩, hcells⟩ := after_counted shortenedChain
  have hlive : shortened.live = [some 1, some 1] := by cbv
  have hmade : shortened.store.nodes.size = 2 := by cbv
  have hhead : 0 ∈ shortened.store.freed :=
    (hfreed 0).2 ⟨Nat.lt_of_lt_of_eq Nat.two_pos hmade.symm, hlive ▸ by decide⟩
  have htail : 1 ∉ shortened.store.freed := fun hgone => ((hfreed 1).1 hgone).2 (hlive ▸ by decide)
  obtain ⟨-, -, hupgrade, -⟩ := hcells "d" ⟨none, "d"⟩ rfl
  obtain ⟨hcompare, -⟩ := hcells "a" ⟨none, "a"⟩ rfl
  refine ⟨hhead, hlive, (hcount 1).trans (hlive ▸ rfl), ?_, ?_, ?_⟩
  · exact (hupgrade "v" 0 (by cbv)).2.trans (if_pos hhead)
  · exact (hupgrade "w" 1 (by cbv)).2.trans (if_neg htail)
  · exact (hcompare "c" ⟨none, "c"⟩ rfl).2 (Or.inr ⟨1, by cbv, by cbv⟩)

end Handles

end FlatDae
