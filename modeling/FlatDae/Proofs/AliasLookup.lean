/-
Module: FlatDae.Proofs.AliasLookup
Purpose: Looking a variable up through its aliases, in any reachable model. Links are set on variables, not
  in the model, so nothing keeps them from leading to a variable that is not registered, or in a circle.
  The lookup ends all the same, and finds something for every registered name; where the links do neither,
  it finds the end of the chain, for which as many steps as there are registered variables are enough.
Main exports: Model.AliasesEnd, Model.AliasesEnd.of_rank, Model.Reachable.representative?_spec
-/
import FlatDae.Proofs.AliasChains
import FlatDae.Proofs.LinkedRuns

namespace FlatDae

namespace Variables

variable {store : Variables} {v w : VarId}

/-- Further links are not followed from a variable that has none. -/
theorem followAliases_of_le {steps more : Nat} (hle : steps ≤ more)
    (hend : Model.followAliases store steps v = w) (hnone : (store.get w).aliasOf = none) :
    Model.followAliases store more v = w := by
  rw [followAliases_eq_iterate] at hend ⊢
  obtain ⟨further, rfl⟩ := Nat.exists_eq_add_of_le' hle
  rw [Function.iterate_add_apply, hend, Function.iterate_fixed (isFixedPt_standIn hnone)]

/-- If every link leads down, so does every chain. -/
theorem AliasChain.rank_lt {vs : List VarId} {rank : VarId → Nat}
    (hdown : ∀ v ∈ vs, ∀ link, (store.get v).aliasOf = some link →
      link.target ∈ vs ∧ rank link.target < rank v)
    {negated : Bool} (h : store.AliasChain v w negated) (hv : v ∈ vs) : rank w < rank v := by
  induction h with
  | direct hlink => exact (hdown _ hv _ hlink).2
  | through hlink _ ih =>
      obtain ⟨hu, hlt⟩ := hdown _ hv _ hlink
      exact (ih hu).trans hlt

/-- Links that stay within the variables lead to no other ones. -/
theorem LeadsTo.mem {vs : List VarId}
    (hclosed : ∀ v ∈ vs, ∀ link, (store.get v).aliasOf = some link → link.target ∈ vs)
    (h : store.LeadsTo v w) (hv : v ∈ vs) : w ∈ vs := by
  rcases h with rfl | ⟨negated, hchain⟩
  · exact hv
  · induction hchain with
    | direct hlink => exact hclosed _ hv _ hlink
    | through hlink _ ih => exact ih (hclosed _ hv _ hlink)

end Variables

namespace Model

variable {m : Model}

theorem mem_modelVariables {v : VarId} :
    v ∈ m.modelVariables ↔ v ∈ m.registered ∧ (m.store.get v).aliasOf = none := by
  simp [modelVariables, Variable.isAlias, Array.mem_toList_iff]

/-- Aliases of registered variables are aliases of registered variables, and not of themselves, over any
    number of others. -/
structure AliasesEnd (m : Model) : Prop where
  registered : ∀ v ∈ m.registered, ∀ link, (m.store.get v).aliasOf = some link →
    link.target ∈ m.registered
  acyclic : ∀ v ∈ m.registered, ∀ negated, ¬ m.store.AliasChain v v negated

namespace AliasesEnd

/-- Links that lead down end. -/
theorem of_rank (rank : VarId → Nat)
    (hdown : ∀ v ∈ m.registered, ∀ link, (m.store.get v).aliasOf = some link →
      link.target ∈ m.registered ∧ rank link.target < rank v) : m.AliasesEnd where
  registered := fun v hv link hlink => (hdown v hv link hlink).1
  acyclic := by
    intro v hv negated hchain
    simp only [← Array.mem_toList_iff] at hdown hv
    exact Nat.lt_irrefl _ (hchain.rank_lt hdown hv)

variable (h : m.AliasesEnd)
include h

theorem closed : ∀ v ∈ m.registered.toList, ∀ link, (m.store.get v).aliasOf = some link →
    link.target ∈ m.registered.toList := by
  simpa only [Array.mem_toList_iff] using h.registered

theorem not_leadsInCircle {v : VarId} (hv : v ∈ m.registered) : ¬ m.store.LeadsInCircle v := by
  rintro ⟨w, hleads, negated, hcircle⟩
  have hw : w ∈ m.registered.toList := hleads.mem h.closed (Array.mem_toList_iff.2 hv)
  exact h.acyclic w (Array.mem_toList_iff.1 hw) negated hcircle

end AliasesEnd

/-- In every reachable model a name has a representative if a registered variable goes by it. If aliases
    end, it is the one model variable that the alias links of the variable lead to, and allowing for more
    steps makes no difference. -/
theorem Reachable.representative?_spec {allowed : Model → Operation → Prop} (h : m.Reachable allowed) :
    (∀ name, m.representative? name = none ↔ ∀ v ∈ m.registered, (m.store.get v).name ≠ name) ∧
    (m.AliasesEnd → ∀ v ∈ m.registered, ∃ w ∈ m.modelVariables,
      m.representative? (m.store.get v).name = some w ∧ m.store.LeadsTo v w ∧
      (∀ u, m.store.LeadsTo v u → (m.store.get u).aliasOf = none → u = w) ∧
      ∀ steps, m.registered.size ≤ steps → followAliases m.store steps v = w) := by
  constructor
  · intro name
    rw [representative?, Option.map_eq_none_iff, ← Option.not_isSome_iff_eq_none,
      h.registeredApart.isSome_findVariable?_iff]
    push Not
    rfl
  · intro hend v hv
    obtain ⟨w, hw, hfollow, hleads, hfree, hunique⟩ :=
      Variables.followAliases_spec hend.closed (Array.mem_toList_iff.2 hv)
    have hnone : (m.store.get w).aliasOf = none := hfree.2 (hend.not_leadsInCircle hv)
    have hfound : m.findVariable? (m.store.get v).name = some v :=
      h.registeredApart.findVariable?_eq_some_iff.2 ⟨hv, rfl⟩
    rw [Array.length_toList] at hfollow
    refine ⟨w, mem_modelVariables.2 ⟨Array.mem_toList_iff.1 hw, hnone⟩, ?_, hleads, hunique,
      fun steps hle => Variables.followAliases_of_le hle hfollow hnone⟩
    rw [representative?, hfound, Option.map_some, hfollow]

/-- Of three variables, `z` is an alias of `y` and `y` is one of `x`. -/
def aliasedTwice : Model :=
  [.addVariable ⟨0⟩, .addVariable ⟨1⟩, .addVariable ⟨2⟩, .setAlias ⟨2⟩ ⟨1⟩ true,
    .setAlias ⟨1⟩ ⟨0⟩ false].foldl Operation.run (made [(1, "x"), (2, "y"), (3, "z")])

theorem aliasedTwice_reachable : aliasedTwice.Reachable fun _ _ => True := by
  refine Runs.foldl (made_reachable _ fun _ _ _ => trivial) _ ?_ ?_ <;>
    simp [Operation.Valid, size_made]

theorem aliasedTwice_aliasesEnd : aliasedTwice.AliasesEnd := by
  refine .of_rank VarId.index ?_
  have hregistered : aliasedTwice.registered = #[⟨0⟩, ⟨1⟩, ⟨2⟩] := by rfl
  have hlinks : [(⟨0⟩ : VarId), ⟨1⟩, ⟨2⟩].map (fun v => (aliasedTwice.store.get v).aliasOf) =
      [none, some ⟨⟨0⟩, false⟩, some ⟨⟨1⟩, true⟩] := by rfl
  simp_all

theorem representative?_spec_aliasedTwice :
    aliasedTwice.AliasesEnd ∧ aliasedTwice.representative? "w" = none ∧
      ∃ w ∈ aliasedTwice.modelVariables, aliasedTwice.representative? "z" = some w ∧
        aliasedTwice.store.LeadsTo ⟨2⟩ w := by
  obtain ⟨hnone, hends⟩ := Reachable.representative?_spec aliasedTwice_reachable
  have hz : (⟨2⟩ : VarId) ∈ aliasedTwice.registered := by
    have hregistered : aliasedTwice.registered = #[⟨0⟩, ⟨1⟩, ⟨2⟩] := by rfl
    simp [hregistered]
  obtain ⟨w, hw, hfound, hleads, -⟩ := hends aliasedTwice_aliasesEnd ⟨2⟩ hz
  exact ⟨aliasedTwice_aliasesEnd, by rfl, w, hw, hfound, hleads⟩

end Model

end FlatDae
