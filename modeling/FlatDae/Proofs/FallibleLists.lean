/-
Module: FlatDae.Proofs.FallibleLists
Purpose: Lists treated element by element by a function that can fail: when that succeeds, and with
  what. What stands in one of two lists that are related element by element has a partner in the other.
Main exports: mapM_congr_mem, mapM_eq_ok_iff, mapM_eq_ok_iff_map, mapM_eq_error_iff,
  exists_of_mapM_eq_error, exists_left_of_forall₂, exists_right_of_forall₂, forall₂_imp_mem,
  forall₂_of_left, exists_mem_zip_of_forall₂
-/
import Mathlib.Data.List.Forall2

namespace FlatDae

variable {α β ε : Type}

/-- Functions that agree on the elements of a list agree on the list. -/
theorem mapM_congr_mem {f f' : α → Except ε β} (as : List α) (h : ∀ a ∈ as, f a = f' a) :
    as.mapM f = as.mapM f' := by
  induction as with
  | nil => rfl
  | cons a as ih =>
      rw [List.mapM_cons, List.mapM_cons, h a List.mem_cons_self,
        ih fun b hb => h b (List.mem_cons_of_mem _ hb)]

/-- A list is treated if every element is, in order. -/
theorem mapM_eq_ok_iff {f : α → Except ε β} {as : List α} {bs : List β} :
    as.mapM f = .ok bs ↔ List.Forall₂ (fun a b => f a = .ok b) as bs := by
  induction as generalizing bs with
  | nil =>
      rw [List.mapM_nil, List.forall₂_nil_left_iff]
      constructor
      · intro h
        exact (Except.ok.inj h).symm
      · intro h
        rw [h]
        rfl
  | cons a as ih =>
      rw [List.mapM_cons, List.forall₂_cons_left_iff]
      constructor
      · intro h
        cases ha : f a with
        | error error =>
            rw [ha] at h
            cases h
        | ok b =>
            cases has : as.mapM f with
            | error error =>
                rw [ha, has] at h
                cases h
            | ok rest =>
                rw [ha, has] at h
                exact ⟨b, rest, rfl, ih.1 has, (Except.ok.inj h).symm⟩
      · rintro ⟨b, rest, ha, has, rfl⟩
        rw [ha, ih.2 has]
        rfl

/-- Where success gives one value only, treating a list gives the list of these values. -/
theorem mapM_eq_ok_iff_map {f : α → Except ε β} {P : α → Prop} {value : α → β} {as : List α}
    {bs : List β} (h : ∀ a ∈ as, ∀ b, f a = .ok b ↔ P a ∧ b = value a) :
    as.mapM f = .ok bs ↔ (∀ a ∈ as, P a) ∧ bs = as.map value := by
  rw [mapM_eq_ok_iff]
  induction as generalizing bs with
  | nil => simp
  | cons a as ih =>
      have htail {bs : List β} := @ih bs fun a' ha' => h a' (List.mem_cons_of_mem _ ha')
      rw [List.forall₂_cons_left_iff, List.forall_mem_cons, List.map_cons]
      constructor
      · rintro ⟨b, rest, hb, hrest, rfl⟩
        obtain ⟨ha, rfl⟩ := (h a List.mem_cons_self b).1 hb
        obtain ⟨has, rfl⟩ := htail.1 hrest
        exact ⟨⟨ha, has⟩, rfl⟩
      · rintro ⟨⟨ha, has⟩, rfl⟩
        exact ⟨_, _, (h a List.mem_cons_self _).2 ⟨ha, rfl⟩, htail.2 ⟨has, rfl⟩, rfl⟩

/-- Treating a list fails with the first element that fails. -/
theorem mapM_eq_error_iff {f : α → Except ε β} {as : List α} {error : ε} :
    as.mapM f = .error error ↔ ∃ before a after, as = before ++ a :: after ∧
      (∀ b ∈ before, ∃ value, f b = .ok value) ∧ f a = .error error := by
  induction as with
  | nil =>
      rw [List.mapM_nil]
      constructor
      · intro h
        cases h
      · rintro ⟨before, a, after, has, -⟩
        cases before <;> cases has
  | cons a as ih =>
      rw [List.mapM_cons]
      constructor
      · intro h
        cases ha : f a with
        | error error' =>
            rw [ha] at h
            obtain rfl := Except.error.inj h
            exact ⟨[], a, as, rfl, fun _ hb => absurd hb List.not_mem_nil, ha⟩
        | ok value =>
            cases has : as.mapM f with
            | ok values =>
                rw [ha, has] at h
                cases h
            | error error' =>
                rw [ha, has] at h
                obtain rfl := Except.error.inj h
                obtain ⟨before, c, after, rfl, hbefore, hc⟩ := ih.1 has
                exact ⟨a :: before, c, after, rfl, List.forall_mem_cons.2 ⟨⟨value, ha⟩, hbefore⟩, hc⟩
      · rintro ⟨before, c, after, has, hbefore, hc⟩
        cases before with
        | nil =>
            obtain ⟨rfl, rfl⟩ := List.cons.inj has
            rw [hc]
            rfl
        | cons b before =>
            obtain ⟨rfl, rfl⟩ := List.cons.inj has
            obtain ⟨⟨value, ha⟩, hbefore⟩ := List.forall_mem_cons.1 hbefore
            rw [ha, ih.2 ⟨before, c, after, rfl, hbefore, hc⟩]
            rfl

/-- If treating a list fails then so does treating one of the elements. -/
theorem exists_of_mapM_eq_error {f : α → Except ε β} {as : List α} {error : ε}
    (h : as.mapM f = .error error) : ∃ a ∈ as, f a = .error error := by
  obtain ⟨before, a, after, rfl, -, ha⟩ := mapM_eq_error_iff.1 h
  exact ⟨a, List.mem_append_right _ List.mem_cons_self, ha⟩

/-! ### Related lists -/

section Related

variable {R S : α → β → Prop} {as : List α} {bs : List β}

/-- What stands on the right of a relation between lists has something on the left. -/
theorem exists_left_of_forall₂ (h : List.Forall₂ R as bs) {b : β} (hb : b ∈ bs) : ∃ a ∈ as, R a b := by
  induction h with
  | nil => cases hb
  | cons hfirst _ ih =>
      rcases List.mem_cons.1 hb with rfl | hb
      · exact ⟨_, List.mem_cons_self, hfirst⟩
      · obtain ⟨a, ha, hrel⟩ := ih hb
        exact ⟨a, List.mem_cons_of_mem _ ha, hrel⟩

/-- What stands on the left of a relation between lists has something on the right. -/
theorem exists_right_of_forall₂ (h : List.Forall₂ R as bs) {a : α} (ha : a ∈ as) : ∃ b ∈ bs, R a b :=
  exists_left_of_forall₂ (R := flip R) h.flip ha

/-- An element of a list has a counterpart at its place in a related list. -/
theorem exists_mem_zip_of_forall₂ (h : List.Forall₂ R as bs) {a : α} (ha : a ∈ as) :
    ∃ b, (a, b) ∈ as.zip bs := by
  rw [← List.map_fst_zip (Nat.le_of_eq h.length_eq)] at ha
  obtain ⟨p, hp, rfl⟩ := List.mem_map.1 ha
  exact ⟨p.2, hp⟩

/-- A relation between the elements of lists may use that they are in the lists. -/
theorem forall₂_imp_mem (h : List.Forall₂ R as bs) (himp : ∀ a ∈ as, ∀ b ∈ bs, R a b → S a b) :
    List.Forall₂ S as bs :=
  List.forall₂_iff_zip.2 ⟨h.length_eq, fun {a b} hmem =>
    himp a (List.of_mem_zip hmem).1 b (List.of_mem_zip hmem).2 ((List.forall₂_iff_zip.1 h).2 hmem)⟩

/-- Two lists that are related to one list are related to each other, through its elements. -/
theorem forall₂_of_left {γ : Type} {T : α → γ → Prop} {U : β → γ → Prop} {cs : List γ}
    (h : List.Forall₂ R as bs) (h' : List.Forall₂ T as cs)
    (himp : ∀ a ∈ as, ∀ b ∈ bs, ∀ c, R a b → T a c → U b c) : List.Forall₂ U bs cs := by
  induction h generalizing cs with
  | nil =>
      cases h'
      exact .nil
  | cons hfirst _ ih =>
      cases h' with
      | cons hfirst' hrest' =>
          refine .cons (himp _ List.mem_cons_self _ List.mem_cons_self _ hfirst hfirst') (ih hrest' ?_)
          intro a ha b hb
          exact himp a (List.mem_cons_of_mem _ ha) b (List.mem_cons_of_mem _ hb)

end Related

end FlatDae
