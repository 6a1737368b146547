/-
Module: FlatDae.Proofs.LinkPass
Purpose: The pass that makes the links of all relations. Which variables a relation joins does not change
  in the pass. A variable ends up with the derivative that the last relation gives that joins it to one,
  the pass counts nothing exactly if every joined variable has had its derivative before, and afterwards
  all that relations join is linked and has a kind that no further pass decides.
Main exports: Model.ends?, Model.Joins, Model.linkPass, Model.linkPass_derivative,
  Model.linkPass_eq_zero_iff, Model.linkPass_relinks, Model.Linked.joined_resolveLinks
-/
import FlatDae.Proofs.DerivativeLinks

namespace FlatDae

namespace Model

/-! ### What a relation joins -/

/-- The derivative and the differentiated variable of a relation, if both are registered and can be
    linked. -/
def ends? (m : Model) (r : DerivativeRelation) : Option (VarId × VarId) :=
  match m.findBySymbol? r.derivative, m.findBySymbol? r.differentiated with
  | some d, some x => if m.isLinkable d && m.isLinkable x then some (d, x) else none
  | _, _ => none

/-- A relation of the model joins `d` as the derivative to `x`. -/
def Joins (m : Model) (d x : VarId) : Prop := ∃ r ∈ m.relations, m.ends? r = some (d, x)

/-- The derivative that a relation gives a variable. -/
def derivativeBy? (m : Model) (x : VarId) (r : DerivativeRelation) : Option VarId :=
  match m.ends? r with
  | some (d, y) => if y = x then some d else none
  | none => none

section Ends

variable {m : Model} {r : DerivativeRelation} {d x : VarId}

theorem ends?_eq_some_iff : m.ends? r = some (d, x) ↔
    m.findBySymbol? r.derivative = some d ∧ m.findBySymbol? r.differentiated = some x ∧
      m.isLinkable d = true ∧ m.isLinkable x = true := by
  unfold ends?
  cases hd : m.findBySymbol? r.derivative with
  | none => simp
  | some d' =>
      cases hx : m.findBySymbol? r.differentiated with
      | none => simp
      | some x' =>
          simp only [Option.ite_none_right_eq_some, Bool.and_eq_true, Option.some.injEq, Prod.mk.injEq]
          constructor
          · rintro ⟨hlinkable, rfl, rfl⟩
            exact ⟨rfl, rfl, hlinkable⟩
          · rintro ⟨rfl, rfl, hlinkable⟩
            exact ⟨hlinkable, rfl, rfl⟩

theorem derivativeBy?_eq_some_iff : m.derivativeBy? x r = some d ↔ m.ends? r = some (d, x) := by
  unfold derivativeBy?
  cases hends : m.ends? r with
  | none => simp
  | some ends =>
      obtain ⟨d', y⟩ := ends
      by_cases hy : y = x <;> simp [hy]

/-- What a relation joins is related. -/
theorem Related.of_ends? (hr : r ∈ m.relations) (h : m.ends? r = some (d, x)) : m.Related d x := by
  obtain ⟨hd, hx, hlinkable, hlinkable'⟩ := ends?_eq_some_iff.1 h
  obtain ⟨hdmem, hdsame⟩ := findBySymbol?_eq_some hd
  obtain ⟨hxmem, hxsame⟩ := findBySymbol?_eq_some hx
  exact ⟨hdmem, hxmem, hlinkable, hlinkable', r, hr, hdsame, hxsame⟩

theorem Joins.related (h : m.Joins d x) : m.Related d x := by
  obtain ⟨r, hr, hends⟩ := h
  exact .of_ends? hr hends

/-- The link of a relation is made unless the differentiated variable has this derivative. -/
theorem resolveLink_eq (m : Model) (r : DerivativeRelation) :
    m.resolveLink r =
      match m.ends? r with
      | some (d, x) =>
        if (m.store.get x).derivative = some d then (0, m) else (1, m.link d x)
      | none => (0, m) := by
  unfold resolveLink ends?
  cases m.findBySymbol? r.derivative with
  | none => rfl
  | some d =>
      cases m.findBySymbol? r.differentiated with
      | none => rfl
      | some x =>
          simp only
          cases hdlinkable : m.isLinkable d <;> cases hxlinkable : m.isLinkable x <;> simp

end Ends

/-! ### Linking does not change what relations join -/

section Updates

variable {m m' : Model} (h : Updates m m')
include h

theorem Updates.findBySymbol?_eq (symbol : Expr) : m'.findBySymbol? symbol = m.findBySymbol? symbol := by
  have hregistered : m'.registered = m.registered := by rw [h.rest]
  have hnames : m'.names = m.names := by rw [h.rest]
  have hsymbol (v : VarId) : (m'.store.get v).symbol = (m.store.get v).symbol := (h.cells v).symbol
  unfold findBySymbol? findVariable? guard
  simp only [hregistered, hnames, hsymbol]

theorem Updates.isLinkable_eq (v : VarId) : m'.isLinkable v = m.isLinkable v := by
  rcases (h.cells v).kind with hsame | ⟨old, new, hold, hnew, hunlinked, hlinked⟩
  · rw [isLinkable, isLinkable, hsame]
  · rw [isLinkable, isLinkable, hold, hnew]
    simp only
    rw [VariableKind.isLinkable_of_isUnlinked hunlinked]
    rcases hlinked with rfl | rfl <;> rfl

theorem Updates.ends?_eq : m'.ends? = m.ends? := by
  funext r
  simp only [ends?, h.findBySymbol?_eq, h.isLinkable_eq]

theorem Updates.relations_eq : m'.relations = m.relations := by
  rw [h.rest]

theorem Updates.exist_of (hexist : ∀ v ∈ m.registered, v.index < m.store.cells.size) :
    ∀ v ∈ m'.registered, v.index < m'.store.cells.size := by
  intro v hv
  rw [h.rest] at hv
  rw [h.size]
  exact hexist v hv

end Updates

/-! ### The pass over relations -/

/-- The links of relations, one after the other, with the number of those made. -/
def linkPass (m : Model) : List DerivativeRelation → Nat × Model
  | [] => (0, m)
  | relation :: relations =>
    let first := m.resolveLink relation
    let rest := first.2.linkPass relations
    (first.1 + rest.1, rest.2)

theorem resolveLinks_eq (m : Model) : m.resolveLinks = m.linkPass m.relations.toList := by
  unfold resolveLinks
  rw [← Array.foldl_toList]
  have hfold (relations : List DerivativeRelation) (linked : Nat) (m : Model) :
      relations.foldl (fun p relation =>
        (p.1 + (p.2.resolveLink relation).1, (p.2.resolveLink relation).2)) (linked, m) =
      (linked + (m.linkPass relations).1, (m.linkPass relations).2) := by
    induction relations generalizing linked m with
    | nil => rfl
    | cons relation relations ih => rw [List.foldl_cons, ih, linkPass, Nat.add_assoc]
  exact (hfold m.relations.toList 0 m).trans (by rw [Nat.zero_add])

/-! ### The derivatives after a pass -/

section Derivatives

/-- The link of a relation gives the derivative that the relation gives. -/
theorem resolveLink_derivative {m : Model} {r : DerivativeRelation}
    (hexist : ∀ v ∈ m.registered, v.index < m.store.cells.size) (hr : r ∈ m.relations) (x : VarId) :
    ((m.resolveLink r).2.store.get x).derivative =
      (m.derivativeBy? x r).or (m.store.get x).derivative := by
  rw [resolveLink_eq, derivativeBy?]
  cases hends : m.ends? r with
  | none => rfl
  | some ends =>
      obtain ⟨d, y⟩ := ends
      have hrelated := Related.of_ends? hr hends
      simp only
      split
      · rename_i hlinked
        by_cases hy : y = x
        · rw [if_pos hy, Option.some_or, ← hy, hlinked]
        · rw [if_neg hy, Option.none_or]
      · rw [m.store_get_link (hexist d hrelated.derivative_mem) (hexist y hrelated.differentiated_mem)]
        by_cases hy : y = x
        · simp [hy]
        · simp [hy, Ne.symm hy]

/-- After a pass a variable has the derivative that the last relation gives it, if any does. -/
theorem linkPass_derivative {m : Model} {relations : List DerivativeRelation}
    (hexist : ∀ v ∈ m.registered, v.index < m.store.cells.size)
    (hrelations : ∀ r ∈ relations, r ∈ m.relations) (x : VarId) :
    ((m.linkPass relations).2.store.get x).derivative =
      (relations.filterMap (m.derivativeBy? x)).getLast?.or (m.store.get x).derivative := by
  induction relations generalizing m with
  | nil => rfl
  | cons relation relations ih =>
      obtain ⟨hfirst, hrest⟩ := List.forall_mem_cons.1 hrelations
      have hupdates : Updates m (m.resolveLink relation).2 := .resolveLink m relation
      have hby : (m.resolveLink relation).2.derivativeBy? x = m.derivativeBy? x := by
        funext r
        rw [derivativeBy?, hupdates.ends?_eq, derivativeBy?]
      rw [linkPass, ih (hupdates.exist_of hexist) fun r hr => hupdates.relations_eq ▸ hrest r hr,
        resolveLink_derivative hexist hfirst, hby, List.filterMap_cons]
      cases m.derivativeBy? x relation with
      | none => rfl
      | some d =>
          rw [Option.some_or, List.getLast?_cons]
          cases (relations.filterMap (m.derivativeBy? x)).getLast? <;> rfl

theorem resolveLinks_derivative {m : Model}
    (hexist : ∀ v ∈ m.registered, v.index < m.store.cells.size) (x : VarId) :
    (m.resolveLinks.2.store.get x).derivative =
      (m.relations.toList.filterMap (m.derivativeBy? x)).getLast?.or (m.store.get x).derivative := by
  rw [resolveLinks_eq]
  exact linkPass_derivative hexist (fun _ hr => Array.mem_toList_iff.1 hr) x

/-- A variable that is joined to derivatives has one of them after the pass. -/
theorem resolveLinks_joins {m : Model} (hexist : ∀ v ∈ m.registered, v.index < m.store.cells.size)
    {d x : VarId} (h : m.Joins d x) :
    ∃ d', (m.resolveLinks.2.store.get x).derivative = some d' ∧ m.Joins d' x := by
  obtain ⟨r, hr, hends⟩ := h
  have hmem : d ∈ m.relations.toList.filterMap (m.derivativeBy? x) :=
    List.mem_filterMap.2 ⟨r, Array.mem_toList_iff.2 hr, derivativeBy?_eq_some_iff.2 hends⟩
  rw [resolveLinks_derivative hexist]
  cases hlast : (m.relations.toList.filterMap (m.derivativeBy? x)).getLast? with
  | none =>
      rw [List.getLast?_eq_none_iff.1 hlast] at hmem
      cases hmem
  | some d' =>
      obtain ⟨r', hr', hby⟩ := List.mem_filterMap.1 (List.mem_of_getLast? hlast)
      exact ⟨d', rfl, r', Array.mem_toList_iff.1 hr', derivativeBy?_eq_some_iff.1 hby⟩

end Derivatives

/-! ### The count of a pass -/

/-- A pass counts no link exactly if each relation finds its derivative in place, and then the pass
    changes nothing. -/
theorem linkPass_eq_zero_iff {m : Model} {relations : List DerivativeRelation} :
    ((m.linkPass relations).1 = 0 ↔
      ∀ r ∈ relations, ∀ d x, m.ends? r = some (d, x) → (m.store.get x).derivative = some d) ∧
    ((m.linkPass relations).1 = 0 → (m.linkPass relations).2 = m) := by
  have hone (r : DerivativeRelation) : ((m.resolveLink r).1 = 0 ↔
      ∀ d x, m.ends? r = some (d, x) → (m.store.get x).derivative = some d) ∧
      ((m.resolveLink r).1 = 0 → (m.resolveLink r).2 = m) := by
    rw [resolveLink_eq]
    cases m.ends? r with
    | none => simp
    | some ends =>
        obtain ⟨d, x⟩ := ends
        by_cases hlinked : (m.store.get x).derivative = some d
        · simp [hlinked]
        · simp [hlinked]
  induction relations with
  | nil => simp [linkPass]
  | cons relation relations ih =>
      obtain ⟨hfirst, hkept⟩ := hone relation
      simp only [linkPass, Nat.add_eq_zero_iff, List.forall_mem_cons]
      constructor
      · constructor
        · rintro ⟨hzero, hrest⟩
          rw [hkept hzero] at hrest
          exact ⟨hfirst.1 hzero, ih.1.1 hrest⟩
        · rintro ⟨hsettled, hrest⟩
          have hzero := hfirst.2 hsettled
          rw [hkept hzero]
          exact ⟨hzero, ih.1.2 hrest⟩
      · rintro ⟨hzero, hrest⟩
        rw [hkept hzero] at hrest ⊢
        exact ih.2 hrest

/-! ### Kinds in a pass -/

/-- Where relations join only variables with decided kinds, a pass changes links alone. -/
theorem linkPass_relinks {m : Model} {relations : List DerivativeRelation}
    (hdecided : ∀ r ∈ relations, ∀ d x, m.ends? r = some (d, x) → m.IsDecided d ∧ m.IsDecided x) :
    Relinks m (m.linkPass relations).2 := by
  induction relations generalizing m with
  | nil => exact .refl m
  | cons relation relations ih =>
      obtain ⟨hfirst, hrest⟩ := List.forall_mem_cons.1 hdecided
      have hrelinks : Relinks m (m.resolveLink relation).2 := by
        rw [resolveLink_eq]
        split
        · rename_i d x hends
          obtain ⟨⟨_, hkind, hdecided⟩, ⟨_, hkind', hdecided'⟩⟩ := hfirst d x hends
          split
          · exact .refl m
          · exact .link hkind hdecided hkind' hdecided'
        · exact .refl m
      have hkept {v : VarId} (hv : m.IsDecided v) : (m.resolveLink relation).2.IsDecided v := by
        obtain ⟨_, _, heq⟩ := hrelinks.cells v
        rw [IsDecided, heq]
        exact hv
      refine hrelinks.trans (ih fun r hr d x hends => ?_)
      rw [(Updates.resolveLink m relation).ends?_eq] at hends
      exact (hrest r hr d x hends).imp hkept hkept

/-! ### Passes over models with links accounted for -/

namespace Linked

variable {m : Model} (h : m.Linked) (hexist : ∀ v ∈ m.registered, v.index < m.store.cells.size)
include h hexist

/-- The link of a relation joins what the relation joins. -/
theorem resolveLink {r : DerivativeRelation} (hr : r ∈ m.relations) :
    (m.resolveLink r).2.Linked ∧ Furthers m (m.resolveLink r).2 ∧
      ∀ d x, m.ends? r = some (d, x) → (m.resolveLink r).2.Joined d x := by
  rw [resolveLink_eq]
  cases hends : m.ends? r with
  | none => exact ⟨h, .refl m, fun _ _ heq => nomatch heq⟩
  | some ends =>
      obtain ⟨d, x⟩ := ends
      have hrelated := Related.of_ends? hr hends
      have hd := hexist d hrelated.derivative_mem
      have hx := hexist x hrelated.differentiated_mem
      simp only
      split
      · rename_i hlinked
        refine ⟨h, .refl m, ?_⟩
        rintro _ _ ⟨⟩
        exact h.derivative hlinked
      · refine ⟨h.link hexist hrelated, .link m hd hx, ?_⟩
        rintro _ _ ⟨⟩
        exact hrelated.joined_link hd hx

/-- A pass joins what its relations join: each step joins its own, and what is joined stays so. -/
theorem linkPass {relations : List DerivativeRelation} (hrelations : ∀ r ∈ relations, r ∈ m.relations) :
    (m.linkPass relations).2.Linked ∧ Furthers m (m.linkPass relations).2 ∧
      ∀ r ∈ relations, ∀ d x, m.ends? r = some (d, x) → (m.linkPass relations).2.Joined d x := by
  induction relations generalizing m with
  | nil => exact ⟨h, .refl m, fun _ hr => nomatch hr⟩
  | cons relation relations ih =>
      obtain ⟨hfirst, hrest⟩ := List.forall_mem_cons.1 hrelations
      obtain ⟨hlinked, hfurthers, hjoined⟩ := h.resolveLink hexist hfirst
      have hupdates : Updates m (m.resolveLink relation).2 := .resolveLink m relation
      obtain ⟨hlinked', hfurthers', hjoined'⟩ := ih hlinked (hupdates.exist_of hexist)
        fun r hr => hupdates.relations_eq ▸ hrest r hr
      refine ⟨hlinked', hfurthers.trans hfurthers', ?_⟩
      rw [hupdates.ends?_eq] at hjoined'
      exact List.forall_mem_cons.2 ⟨fun d x hends => (hjoined d x hends).mono hfurthers', hjoined'⟩

theorem resolveLinks : m.resolveLinks.2.Linked := by
  rw [resolveLinks_eq]
  exact (h.linkPass hexist fun _ hr => Array.mem_toList_iff.1 hr).1

/-- After the pass all that relations join is joined. -/
theorem joined_resolveLinks {d x : VarId} (hjoins : m.Joins d x) : m.resolveLinks.2.Joined d x := by
  obtain ⟨r, hr, hends⟩ := hjoins
  rw [resolveLinks_eq]
  exact (h.linkPass hexist fun _ hr => Array.mem_toList_iff.1 hr).2.2 r (Array.mem_toList_iff.2 hr)
    d x hends

end Linked

end Model

end FlatDae
