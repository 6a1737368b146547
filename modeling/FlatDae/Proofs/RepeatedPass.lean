/-
Module: FlatDae.Proofs.RepeatedPass
Purpose: A pass over the derivative relations that directly follows another one. It makes no link if no
  variable is joined to two derivatives, and then it changes nothing. Otherwise each of the variables is
  linked to all of its derivatives once more, of which the last stays as before, while a derivative may
  end up with another variable. Kinds stay, unless links were set by hand.
Main exports: Model.Reachable.resolveLinks_again
-/
import FlatDae.Proofs.LinkedRuns

namespace FlatDae

namespace Model

section SecondPass

variable {m : Model} (hexist : ∀ v ∈ m.registered, v.index < m.store.cells.size)
include hexist

/-- A second pass counts nothing exactly if no variable is joined to two derivatives. -/
theorem resolveLinks_again_eq_zero_iff :
    m.resolveLinks.2.resolveLinks.1 = 0 ↔ ∀ d d' x, m.Joins d x → m.Joins d' x → d = d' := by
  have hupdates := Updates.resolveLinks m
  rw [resolveLinks_eq m.resolveLinks.2, linkPass_eq_zero_iff.1, hupdates.relations_eq,
    hupdates.ends?_eq]
  constructor
  · rintro hsettled d d' x ⟨r, hr, hends⟩ ⟨r', hr', hends'⟩
    have hd := hsettled r (Array.mem_toList_iff.2 hr) d x hends
    have hd' := hsettled r' (Array.mem_toList_iff.2 hr') d' x hends'
    exact Option.some.inj (hd.symm.trans hd')
  · intro honce r hr d x hends
    have hjoins : m.Joins d x := ⟨r, Array.mem_toList_iff.1 hr, hends⟩
    obtain ⟨d', hlink, hjoins'⟩ := resolveLinks_joins hexist hjoins
    rw [hlink, honce d d' x hjoins hjoins']

omit hexist in
/-- A second pass that counts nothing changes nothing. -/
theorem resolveLinks_again_of_eq_zero (hzero : m.resolveLinks.2.resolveLinks.1 = 0) :
    m.resolveLinks.2.resolveLinks.2 = m.resolveLinks.2 := by
  rw [resolveLinks_eq m.resolveLinks.2] at hzero ⊢
  exact linkPass_eq_zero_iff.2 hzero

/-- A second pass leaves every variable with the derivative that it had after the first one. -/
theorem resolveLinks_again_derivative (v : VarId) :
    (m.resolveLinks.2.resolveLinks.2.store.get v).derivative =
      (m.resolveLinks.2.store.get v).derivative := by
  have hupdates := Updates.resolveLinks m
  have hby : m.resolveLinks.2.derivativeBy? v = m.derivativeBy? v := by
    funext r
    rw [derivativeBy?, hupdates.ends?_eq, derivativeBy?]
  rw [resolveLinks_derivative (hupdates.exist_of hexist), hupdates.relations_eq, hby,
    resolveLinks_derivative hexist, ← Option.or_assoc, Option.or_self]

/-- If links are accounted for, the first pass decides all kinds that a second one could. -/
theorem Linked.resolveLinks_again_kind (hlinked : m.Linked) (v : VarId) :
    (m.resolveLinks.2.resolveLinks.2.store.get v).kind = (m.resolveLinks.2.store.get v).kind := by
  have hupdates := Updates.resolveLinks m
  have hrelinks : Relinks m.resolveLinks.2 m.resolveLinks.2.resolveLinks.2 := by
    rw [resolveLinks_eq m.resolveLinks.2]
    refine linkPass_relinks fun r hr d x hends => ?_
    rw [hupdates.relations_eq] at hr
    rw [hupdates.ends?_eq] at hends
    have hjoined := hlinked.joined_resolveLinks hexist ⟨r, Array.mem_toList_iff.1 hr, hends⟩
    exact ⟨hjoined.derivative_decided, hjoined.differentiated_decided⟩
  obtain ⟨_, _, heq⟩ := hrelinks.cells v
  rw [heq]

end SecondPass

/-- In every reachable state a pass that directly follows another one counts nothing exactly if no
    registered variable is joined to two derivatives, and then it changes nothing. In any case each
    variable keeps its derivative and, unless links were set by hand, its kind. -/
theorem Reachable.resolveLinks_again {m : Model} (h : m.Reachable fun _ _ => True) :
    (m.resolveLinks.2.resolveLinks.1 = 0 ↔ ∀ d d' x, m.Joins d x → m.Joins d' x → d = d') ∧
    (m.resolveLinks.2.resolveLinks.1 = 0 → m.resolveLinks.2.resolveLinks.2 = m.resolveLinks.2) ∧
    (∀ v, (m.resolveLinks.2.resolveLinks.2.store.get v).derivative =
      (m.resolveLinks.2.store.get v).derivative) ∧
    (m.Reachable (fun _ op => ¬ op.LinksByHand) →
      ∀ v, (m.resolveLinks.2.resolveLinks.2.store.get v).kind =
        (m.resolveLinks.2.store.get v).kind) := by
  have hexist := h.registeredApart.exist
  exact ⟨resolveLinks_again_eq_zero_iff hexist, resolveLinks_again_of_eq_zero,
    resolveLinks_again_derivative hexist, fun hhand => hhand.linked.resolveLinks_again_kind hexist⟩

/-- A second pass over a chain of derivatives does nothing. -/
theorem resolveLinks_again_chain :
    lateChain.resolveLinks.2.resolveLinks.1 = 0 ∧
      lateChain.resolveLinks.2.resolveLinks.2 = lateChain.resolveLinks.2 := by
  obtain ⟨hzero, hnothing, -⟩ :=
    Reachable.resolveLinks_again (lateChain_reachable.mono fun _ _ _ => trivial)
  have hlinked := lateChain_reachable.linked
  have hdone := hzero.2 fun d d' x hd hd' =>
    (hd'.related.differentiates hlinked lateChain_statedIn).derivative_unique
      (hd.related.differentiates hlinked lateChain_statedIn) lateChain_derivativesOnce
      lateChain_reachable.registeredApart
  exact ⟨hdone, hnothing hdone⟩

/-! ### Variables with two derivatives -/

/-- The equations `d = der(x)` and `e = der(x)`, after the three variables. -/
def twoDerivatives : Model :=
  [.addVariable ⟨0⟩, .addVariable ⟨1⟩, .addVariable ⟨2⟩,
    .addDaeEquation ⟨.symbol 2 "d", .der 4 (.symbol 1 "x")⟩,
    .addDaeEquation ⟨.symbol 3 "e", .der 5 (.symbol 1 "x")⟩].foldl Operation.run
    (made [(1, "x"), (2, "d"), (3, "e")])

/-- The equations `d = der(x)`, `d = der(y)` and `e = der(y)`, before the variables `e`, `d`, `y` and
    `x`. -/
def crossedDerivatives : Model :=
  [.addDaeEquation ⟨.symbol 3 "d", .der 5 (.symbol 1 "x")⟩,
    .addDaeEquation ⟨.symbol 3 "d", .der 6 (.symbol 2 "y")⟩,
    .addDaeEquation ⟨.symbol 4 "e", .der 7 (.symbol 2 "y")⟩,
    .addVariable ⟨3⟩, .addVariable ⟨2⟩, .addVariable ⟨1⟩, .addVariable ⟨0⟩].foldl Operation.run
    (made [(1, "x"), (2, "y"), (3, "d"), (4, "e")])

/-- A second pass links a variable to both of its derivatives once more, and `d`, which was linked to
    `x`, may be linked to `y` by it. -/
theorem resolveLinks_again_twice :
    twoDerivatives.Reachable (fun _ op => ¬ op.LinksByHand) ∧
    twoDerivatives.resolveLinks.2.resolveLinks.1 = 2 ∧
    crossedDerivatives.Reachable (fun _ op => ¬ op.LinksByHand) ∧
    crossedDerivatives.resolveLinks.2.resolveLinks.1 = 2 ∧
    (crossedDerivatives.resolveLinks.2.store.get ⟨2⟩).differentiated = some ⟨0⟩ ∧
    (crossedDerivatives.resolveLinks.2.resolveLinks.2.store.get ⟨2⟩).differentiated = some ⟨1⟩ := by
  refine ⟨?_, rfl, ?_, rfl, rfl, rfl⟩ <;>
    refine Runs.foldl (made_reachable _ fun _ => not_linksByHand_continuousVariable) _ ?_ ?_ <;>
    simp [Operation.Valid, Operation.LinksByHand, size_made]

end Model

end FlatDae
