/-
Module: FlatDae.Proofs.TextLinks
Purpose: Derivative links in the model of a text. All links are between registered continuous variables
  and along equations, kinds agree with them, and every such variable that an equation makes a derivative
  or differentiates has a link on that side. A link is mutual where it is the only one that the
  equations allow; a variable with several derivatives, or one that is the derivative of several, has
  place for one.
Main exports: Model.PairedLinks, Model.Unaided.pairedLinks_resolveLinks, Model.ofText_links
-/
import FlatDae.Proofs.LinkedRuns
import FlatDae.Proofs.Rearrangement
import FlatDae.Proofs.TextRuns

namespace FlatDae

open FlatDae.Expr (Graph)

namespace Model

/-! ### Links that agree with kinds and equations -/

/-- Links, kinds and equations agree. What an equation makes the derivative of a continuous variable is
    of the kind derivative and linked to such a variable, and the same holds on the other side; there is
    no other link, and links are mutual where the equations leave no choice. -/
structure PairedLinks (m : Model) : Prop where
  ofDerivative : ∀ d, (∃ x, m.Differentiates d x) → (m.store.get d).kind = some .derivative ∧
    ∃ x, (m.store.get d).differentiated = some x ∧ m.Differentiates d x ∧
      ((∀ d', m.Differentiates d' x → d' = d) → (m.store.get x).derivative = some d)
  ofDifferentiated : ∀ x, (∃ d, m.Differentiates d x) →
    ((m.store.get x).kind = some .derivative ∨ (m.store.get x).kind = some .differentiated) ∧
    ∃ d, (m.store.get x).derivative = some d ∧ m.Differentiates d x ∧
      ((∀ x', m.Differentiates d x' → x' = x) → (m.store.get d).differentiated = some x)
  isMutual : ∀ d x, (m.store.get x).derivative = some d →
    (∀ x', m.Differentiates d x' → x' = x) → (m.store.get d).differentiated = some x
  linked : ∀ d x, (m.store.get x).derivative = some d ∨ (m.store.get d).differentiated = some x →
    m.Differentiates d x

/-- The sides of a relation have the kinds that it gives them. -/
theorem Related.kinds {m : Model} {d x : VarId} (h : m.Related d x) (hkinded : m.Kinded) :
    (m.store.get d).kind = some .derivative ∧
      ((m.store.get x).kind = some .derivative ∨ (m.store.get x).kind = some .differentiated) := by
  obtain ⟨r, hr, hdsame, hxsame⟩ := h.relation
  have hd := hkinded d h.derivative_mem
  have hx := hkinded x h.differentiated_mem
  have hdlinkable := h.derivative_linkable
  have hxlinkable := h.differentiated_linkable
  rw [isLinkable, hd] at hdlinkable
  rw [isLinkable, hx] at hxlinkable
  rw [hd, hx, Variable.kindFrom_of_derivative hdlinkable hr hdsame]
  exact ⟨rfl, (VariableKind.eq_of_isLinkable hxlinkable
    (Variable.kindFrom_of_differentiated hxlinkable hr hxsame)).imp (congrArg some) (congrArg some)⟩

section Paired

variable {g : Graph} {m : Model} (h : m.Unaided) (hstated : m.resolveLinks.2.StatedIn g)
include h hstated

/-- The links after the last pass. Each side that is joined has some link, and where there is no choice
    it is the one to the other side. -/
theorem Unaided.pairedLinks_resolveLinks (hkinded : m.resolveLinks.2.Kinded) :
    m.resolveLinks.2.PairedLinks := by
  have hlinked : m.resolveLinks.2.Linked := h.linked.resolveLinks h.registeredApart.exist
  have hjoins {d x : VarId} (hd : m.resolveLinks.2.Differentiates d x) :
      m.resolveLinks.2.Joined d x :=
    (differentiates_resolveLinks_iff.1 hd).joined_resolveLinks h.linked h.registeredApart
  have hdifferentiates {d x : VarId} (hjoined : m.resolveLinks.2.Joined d x) :
      m.resolveLinks.2.Differentiates d x := hjoined.toRelated.differentiates hlinked hstated
  have hderivative {d x : VarId} (hjoined : m.resolveLinks.2.Joined d x)
      (honly : ∀ d', m.resolveLinks.2.Differentiates d' x → d' = d) :
      (m.resolveLinks.2.store.get x).derivative = some d := by
    obtain ⟨d', hlink⟩ := Option.isSome_iff_exists.1 hjoined.derivative_isSome
    rw [hlink, honly d' (hdifferentiates (hlinked.derivative hlink))]
  have hdifferentiated {d x : VarId} (hjoined : m.resolveLinks.2.Joined d x)
      (honly : ∀ x', m.resolveLinks.2.Differentiates d x' → x' = x) :
      (m.resolveLinks.2.store.get d).differentiated = some x := by
    obtain ⟨x', hlink⟩ := Option.isSome_iff_exists.1 hjoined.differentiated_isSome
    rw [hlink, honly x' (hdifferentiates (hlinked.differentiated hlink))]
  constructor
  · rintro d ⟨x, hd⟩
    obtain ⟨x', hlink⟩ := Option.isSome_iff_exists.1 (hjoins hd).differentiated_isSome
    have hjoined := hlinked.differentiated hlink
    exact ⟨(hjoined.kinds hkinded).1, x', hlink, hdifferentiates hjoined, hderivative hjoined⟩
  · rintro x ⟨d, hd⟩
    obtain ⟨d', hlink⟩ := Option.isSome_iff_exists.1 (hjoins hd).derivative_isSome
    have hjoined := hlinked.derivative hlink
    exact ⟨(hjoined.kinds hkinded).2, d', hlink, hdifferentiates hjoined, hdifferentiated hjoined⟩
  · exact fun d x hlink => hdifferentiated (hlinked.derivative hlink)
  · rintro d x (hlink | hlink)
    · exact hdifferentiates (hlinked.derivative hlink)
    · exact hdifferentiates (hlinked.differentiated hlink)

end Paired

/-! ### Texts -/

/-- If the model is made of nodes of a graph, so are its symbols and equations. -/
theorem NodesIn.statedIn {g : Graph} {m : Model} (h : m.NodesIn g) : m.StatedIn g := by
  have hsides : Elaboration.SidesIn g m.equations := by
    intro eq heq
    rcases List.mem_append.1 heq with hinitial | hdae
    · exact h.initialEquations eq hinitial
    · exact h.daeEquations eq hdae
  exact ⟨fun v hv => h.meant _ _ (Or.inr ⟨v, hv, rfl, rfl⟩), fun eq heq => (hsides eq heq).1,
    fun eq heq => (hsides eq heq).2⟩

/-- In the model of a text, links agree with kinds and equations, and they are mutual where the equations
    leave no choice. -/
theorem ofText_links {s : String} {m : Model} (h : Model.ofText s = .ok m) : m.PairedLinks := by
  obtain ⟨text, -, helaborate⟩ := exists_elaborateModel_of_ofText h
  obtain ⟨before, hunaided, rfl⟩ := Elaboration.elaborateModel_unaided helaborate
  obtain ⟨-, -, hassembled⟩ := Elaboration.elaborateModel_translates helaborate
  obtain ⟨g, hnodes⟩ := hassembled.nodes
  exact hunaided.pairedLinks_resolveLinks hnodes.statedIn hassembled.kinded

theorem ofText_links_chainText : ∃ m, Model.ofText chainText = .ok m ∧ m.PairedLinks := by
  obtain ⟨m, hm⟩ := exists_ofText_of_isOk chainText_isOk
  exact ⟨m, hm, ofText_links hm⟩

/-- A text with the derivative of an input, and with one variable as the derivative of two. -/
def unpairedText : String :=
  "model A input Real u; Real d; Real g; Real y; Real z; " ++
    "equation d = der(u); g = der(y); g = der(z); end A;"

set_option maxRecDepth 100000 in
/-- The variables with their kinds, their derivatives and what they are the derivatives of. -/
theorem unpairedText_links : (Model.ofText unpairedText).toOption.map (fun m =>
      (m.registered.toList, m.registered.toList.map fun v =>
        ((m.store.get v).kind, (m.store.get v).derivative, (m.store.get v).differentiated))) =
    some ([⟨0⟩, ⟨1⟩, ⟨2⟩, ⟨3⟩, ⟨4⟩],
      [(some (.input .real), none, none), (some .derivative, none, none),
        (some .derivative, none, some ⟨4⟩), (some .differentiated, some ⟨2⟩, none),
        (some .differentiated, some ⟨2⟩, none)]) := by
  decide +kernel

/-- A derivative of an input has no link, and a variable that is the derivative of two others is linked
    to one of them. -/
theorem ofText_links_unpaired : ∃ m, Model.ofText unpairedText = .ok m ∧
    (¬ ∀ d ∈ m.registered, (m.store.get d).kind = some .derivative →
      ∃ x, (m.store.get d).differentiated = some x ∧ (m.store.get x).derivative = some d) ∧
    (¬ ∀ x ∈ m.registered, (m.store.get x).kind = some .differentiated →
      ∃ d, (m.store.get x).derivative = some d ∧ (m.store.get d).differentiated = some x) ∧
    ¬ ∀ d x, (m.store.get x).derivative = some d → (m.store.get d).differentiated = some x := by
  have hlinks := unpairedText_links
  cases hm : Model.ofText unpairedText with
  | error failure =>
      rw [hm] at hlinks
      cases hlinks
  | ok m =>
      rw [hm] at hlinks
      obtain ⟨hregistered, hlinks⟩ := Prod.mk.inj (Option.some.inj hlinks)
      have hmem (v : VarId) (hv : v ∈ [⟨0⟩, ⟨1⟩, ⟨2⟩, ⟨3⟩, ⟨4⟩]) : v ∈ m.registered :=
        Array.mem_toList_iff.1 (hregistered ▸ hv)
      rw [hregistered] at hlinks
      simp only [List.map_cons, List.cons.injEq, Prod.mk.injEq] at hlinks
      obtain ⟨-, ⟨hd, -, hunlinked⟩, ⟨-, -, hg⟩, ⟨hy, hylink, -⟩, -⟩ := hlinks
      have hother : some (⟨4⟩ : VarId) ≠ some ⟨3⟩ := by decide
      refine ⟨m, rfl, fun hall => ?_, fun hall => ?_, fun hall => ?_⟩
      · obtain ⟨x, hx, -⟩ := hall ⟨1⟩ (hmem _ (by decide)) hd
        exact nomatch hunlinked.symm.trans hx
      · obtain ⟨d, hlink, hback⟩ := hall ⟨3⟩ (hmem _ (by decide)) hy
        obtain rfl := Option.some.inj (hylink.symm.trans hlink)
        exact hother (hg.symm.trans hback)
      · exact hother (hg.symm.trans (hall ⟨2⟩ ⟨3⟩ hylink))

end Model

end FlatDae
