/-
Module: FlatDae.Proofs.LinkedKinds
Purpose: The kinds that a run ends with. Where equations relate registered continuous variables only, the
  last pass gives each of these the kind that it is classified as over all relations, but for one that is
  a derivative and has one: a link decides its kind by the side that is linked first. If the equations
  come before the variables, the kinds are those of the classification without exception.
Main exports: Variable.roleKind, Model.RelatesContinuous, Operation.EquationsFirst, Model.Settled,
  Model.Reachable.resolveLinks_kinds
-/
import FlatDae.Proofs.LinkedRuns

namespace FlatDae

open FlatDae.Expr (Graph)

/-- The kind of a continuous variable over all relations. -/
def Variable.roleKind (relations : Array DerivativeRelation) (var : Variable) : VariableKind :=
  .ofRole var.causality (relations.any (·.derivative.same var.symbol))
    (relations.any (·.differentiated.same var.symbol))

/-- The operation adds an equation only before variables are registered. -/
def Operation.EquationsFirst (m : Model) : Operation → Prop
  | .addInitialEquation _ => m.registered = #[]
  | .addDaeEquation _ => m.registered = #[]
  | _ => True

namespace Variable

variable {relations relations' : Array DerivativeRelation} {a b : Variable}

/-- The kind depends on how a variable was made and on which relations there are. -/
theorem SameMake.roleKind_eq (h : a.SameMake b) (hrelations : ∀ r, r ∈ relations' ↔ r ∈ relations) :
    b.roleKind relations' = a.roleKind relations := by
  have hany (p : DerivativeRelation → Bool) : relations'.any p = relations.any p := by
    rw [Bool.eq_iff_iff, Array.any_eq_true', Array.any_eq_true']
    simp only [hrelations]
  rw [roleKind, roleKind, h.symbol, h.causality, hany, hany]

/-- A continuous variable without links is classified as what the relations make it. -/
theorem IsContinuous.kindFrom_eq (h : a.IsContinuous) :
    a.kindFrom relations = a.roleKind relations := by
  rw [kindFrom, roleKind, h.variability]
  cases hcausality : a.causality with
  | input => exact absurd hcausality h.causality
  | _ => rfl

end Variable

/-- A continuous variable is classified by its role in derivative relations. -/
theorem classify_of_continuous (store : Variables) {var : Variable} (h : var.IsContinuous)
    (relations : Array DerivativeRelation) :
    ∃ c, classify store var relations = .ok c ∧
      c.kind = match derivativeRole store var relations with
        | .derivativeOf _ => .derivative
        | .differentiatedBy _ => .differentiated
        | .none => if var.causality == .output then .output else .algebraic := by
  unfold classify
  rw [h.variability, h.domain]
  cases hcausality : var.causality with
  | input => exact absurd hcausality h.causality
  | _ => exact ⟨_, rfl, rfl⟩

namespace Model

/-! ### Classification of linked variables -/

/-- Links that are accounted for agree with the relations, so a continuous variable is classified as
    what the relations make it, whatever links it has. -/
theorem Linked.classify_eq {m : Model} (h : m.Linked) {v : VarId}
    (hcontinuous : (m.store.get v).IsContinuous) :
    ∃ c, classify m.store (m.store.get v) m.relations = .ok c ∧
      c.kind = (m.store.get v).roleKind m.relations := by
  obtain ⟨c, hclassify, hkind⟩ := classify_of_continuous m.store hcontinuous m.relations
  refine ⟨c, hclassify, hkind.trans ?_⟩
  have hany {p : DerivativeRelation → Bool} {r : DerivativeRelation} (hr : r ∈ m.relations)
      (hp : p r = true) : m.relations.any p = true := Array.any_eq_true'.2 ⟨r, hr, hp⟩
  have hnone {p : DerivativeRelation → Bool} (hfind : m.relations.find? p = none) :
      m.relations.any p = false := Array.any_eq_false'.2 (Array.find?_eq_none.1 hfind)
  rw [Variable.roleKind, VariableKind.ofRole]
  unfold derivativeRole
  cases hdifferentiated : (m.store.get v).differentiated with
  | some x =>
      obtain ⟨r, hr, hsame, -⟩ := (h.differentiated hdifferentiated).relation
      rw [if_pos (hany hr hsame)]
  | none =>
      cases hfind : m.relations.find? (·.derivative.same (m.store.get v).symbol) with
      | some r =>
          rw [if_pos (hany (Array.mem_of_find?_eq_some hfind) (Array.find?_some hfind))]
      | none =>
          rw [hnone hfind, if_neg Bool.false_ne_true]
          cases hderivative : (m.store.get v).derivative with
          | some d =>
              obtain ⟨r, hr, -, hsame⟩ := (h.derivative hderivative).relation
              rw [if_pos (hany hr hsame)]
          | none =>
              cases hfind' : m.relations.find? (·.differentiated.same (m.store.get v).symbol) with
              | some r =>
                  rw [if_pos (hany (Array.mem_of_find?_eq_some hfind') (Array.find?_some hfind'))]
              | none => rw [hnone hfind', if_neg Bool.false_ne_true]

/-- Once all that relations say of a continuous variable is decided by links, its kind is what the
    relations make it, or it is both a derivative and differentiated and was linked as the latter
    first. -/
theorem Linked.kind_eq_or {m : Model} (h : m.Linked) {v : VarId} (hv : v ∈ m.registered)
    (hcontinuous : (m.store.get v).IsContinuous)
    (hdecided : ∀ r ∈ m.relations, r.derivative.same (m.store.get v).symbol = true ∨
      r.differentiated.same (m.store.get v).symbol = true → m.IsDecided v) :
    (m.store.get v).kind = some ((m.store.get v).roleKind m.relations) ∨
      (m.relations.any (·.derivative.same (m.store.get v).symbol) = true ∧
        m.relations.any (·.differentiated.same (m.store.get v).symbol) = true ∧
        (m.store.get v).kind = some .differentiated) := by
  obtain ⟨kind, hkind, hfits⟩ := h.kinds v hv
  have hlinkable := hfits.isLinkable_iff.2 hcontinuous
  rw [hkind, Variable.roleKind]
  cases hunlinked : kind.isUnlinked with
  | true =>
      have hnot (p : DerivativeRelation → Bool) (hp : ∀ r ∈ m.relations, p r = true → m.IsDecided v) :
          m.relations.any p = false := by
        rw [Array.any_eq_false']
        intro r hr hsame
        obtain ⟨kind', hkind', hdecided⟩ := hp r hr hsame
        rw [Option.some.inj (hkind'.symm.trans hkind), hunlinked] at hdecided
        cases hdecided
      rw [hnot _ fun r hr hsame => hdecided r hr (Or.inl hsame),
        hnot _ fun r hr hsame => hdecided r hr (Or.inr hsame), ← hfits.unlinked hunlinked]
      exact Or.inl rfl
  | false =>
      cases hcase : kind with
      | derivative =>
          rw [VariableKind.ofRole, if_pos (hfits.derivative hcase)]
          exact Or.inl rfl
      | differentiated =>
          have hdifferentiated := hfits.differentiated hcase
          cases hderivative : m.relations.any (·.derivative.same (m.store.get v).symbol) with
          | true => exact Or.inr ⟨rfl, hdifferentiated, rfl⟩
          | false =>
              rw [VariableKind.ofRole, if_neg Bool.false_ne_true, if_pos hdifferentiated]
              exact Or.inl rfl
      | algebraic => rw [hcase] at hunlinked; cases hunlinked
      | output => rw [hcase] at hunlinked; cases hunlinked
      | _ => rw [hcase] at hlinkable; cases hlinkable

/-! ### Runs with the equations first -/

/-- Every registered continuous variable has the kind that the relations make it. -/
def Settled (m : Model) : Prop :=
  ∀ v ∈ m.registered, (m.store.get v).IsContinuous →
    (m.store.get v).kind = some ((m.store.get v).roleKind m.relations)

section Settled

variable {m m' : Model} (h : m.Settled)
include h

theorem Settled.of_relinks (hrelinks : Relinks m m') : m'.Settled := by
  intro v hv
  rw [hrelinks.rest] at hv ⊢
  obtain ⟨_, _, heq⟩ := hrelinks.cells v
  simp only [heq]
  exact fun hcontinuous => h v hv ⟨hcontinuous.domain, hcontinuous.variability, hcontinuous.causality⟩

theorem Settled.of_keepsLinks (hkeeps : KeepsLinks m m') (hrelations : m'.relations = m.relations) :
    m'.Settled := by
  intro v hv hcontinuous
  have hold : v ∈ m.registered := hkeeps.registered ▸ hv
  have hmade := hkeeps.made v hold
  rw [hkeeps.kind v hold, h v hold (hmade.isContinuous_iff.1 hcontinuous),
    hmade.roleKind_eq fun r => by rw [hrelations]]

/-- In what is related both kinds are decided. -/
theorem Settled.decided (hlinked : m.Linked) {d x : VarId} (hrelated : m.Related d x) :
    m.IsDecided d ∧ m.IsDecided x := by
  have hd := (hlinked.isLinkable_iff hrelated.derivative_mem).1 hrelated.derivative_linkable
  have hx := (hlinked.isLinkable_iff hrelated.differentiated_mem).1 hrelated.differentiated_linkable
  obtain ⟨r, hr, hdsame, hxsame⟩ := hrelated.relation
  have hany : m.relations.any (·.derivative.same (m.store.get d).symbol) = true :=
    Array.any_eq_true'.2 ⟨r, hr, hdsame⟩
  have hany' : m.relations.any (·.differentiated.same (m.store.get x).symbol) = true :=
    Array.any_eq_true'.2 ⟨r, hr, hxsame⟩
  refine ⟨⟨_, h d hrelated.derivative_mem hd, ?_⟩, ⟨_, h x hrelated.differentiated_mem hx, ?_⟩⟩
  · rw [Variable.roleKind, VariableKind.ofRole, if_pos hany]
    rfl
  · rw [Variable.roleKind, VariableKind.ofRole, if_pos hany']
    split <;> rfl

/-- A link between related variables decides no kind. -/
theorem Settled.link (hlinked : m.Linked) {d x : VarId} (hrelated : m.Related d x) :
    (m.link d x).Settled := by
  obtain ⟨⟨_, hkind, hdecided⟩, ⟨_, hkind', hdecided'⟩⟩ := h.decided hlinked hrelated
  exact h.of_relinks (.link hkind hdecided hkind' hdecided')

/-- Nor does the last pass. -/
theorem Settled.relinks_resolveLinks (hlinked : m.Linked) : Relinks m m.resolveLinks.2 := by
  rw [resolveLinks_eq]
  exact linkPass_relinks fun r hr d x hends =>
    h.decided hlinked (.of_ends? (Array.mem_toList_iff.1 hr) hends)

section Registration

variable {v : VarId} {classification : Classification} {type : VariableType} {types : TypeRegistry}
  (hlinked : m.Linked) (hexist : v.index < m.store.cells.size) (hnew : v ∉ m.registered)
  (hclassify : classify m.store (m.store.get v) m.relations = .ok classification)
include hlinked hexist hnew hclassify

theorem Settled.enroll : (m.enroll v classification type types).Settled := by
  obtain ⟨hderivative, hdifferentiated⟩ := hlinked.unlinked hnew
  intro w hw hcontinuous
  rw [enroll_registered] at hw
  rw [enroll_relations hdifferentiated]
  rcases Array.mem_push.1 hw with hlisted | rfl
  · have hother : (m.enroll v classification type types).store.get w = m.store.get w :=
      enroll_get_of_ne fun heq => hnew (heq ▸ hlisted)
    rw [hother] at hcontinuous ⊢
    exact h w hlisted hcontinuous
  · have hself : (m.enroll w classification type types).store.get w =
        { m.store.get w with declaredType := some type, kind := some classification.kind } :=
      enroll_get_self hexist
    rw [hself] at hcontinuous ⊢
    have hmake : (m.store.get w).IsContinuous :=
      ⟨hcontinuous.domain, hcontinuous.variability, hcontinuous.causality⟩
    rw [(classify_unlinked hderivative hdifferentiated hclassify).1, hmake.kindFrom_eq]
    rfl

theorem Settled.register : (m.register v classification type types).Settled := by
  obtain ⟨hderivative, hdifferentiated⟩ := hlinked.unlinked hnew
  have hsettled : (m.enroll v classification type types).Settled :=
    h.enroll hlinked hexist hnew hclassify
  rcases register_eq hexist hderivative hdifferentiated hclassify with heq | ⟨d, x, hrelated, heq⟩
  · rw [heq]
    exact hsettled
  · rw [heq]
    exact hsettled.link (hlinked.enroll hexist hnew hclassify) hrelated

end Registration

/-- If equations come first, all operations leave continuous variables with the kinds that the
    relations make them. -/
theorem Settled.run (hlinked : m.Linked) (happart : m.RegisteredApart) {op : Operation}
    (hvalid : op.Valid m) (hhand : ¬ op.LinksByHand) (hfirst : op.EquationsFirst m) :
    (op.run m).Settled := by
  rcases run_links_cases happart hhand with
    hkeeps | ⟨eq, hop, hlearns⟩ | ⟨v, _, _, _, rfl, hfree, hclassify, heq⟩ | rfl
  · exact h.of_keepsLinks hkeeps.toKeepsLinks hkeeps.relations_eq
  · have hempty : m.registered = #[] := by
      rcases hop with rfl | rfl
      · exact hfirst
      · exact hfirst
    intro v hv
    rw [hlearns.registered, hempty] at hv
    simp at hv
  · rw [heq]
    exact h.register hlinked hvalid (happart.not_mem_registered hfree) hclassify
  · exact h.of_relinks (h.relinks_resolveLinks hlinked)

end Settled

theorem Reachable.settled {m : Model}
    (h : m.Reachable fun m op => ¬ op.LinksByHand ∧ op.EquationsFirst m) : m.Settled := by
  induction h with
  | start => exact fun v hv => by simp at hv
  | step op hrun hvalid hallowed ih =>
      have hlinked := Reachable.linked (hrun.mono fun _ _ hop => hop.1)
      exact ih.run hlinked (Reachable.registeredApart hrun) hvalid hallowed.1 hallowed.2

/-! ### Kinds after the last pass -/

/-- Equations relate registered continuous variables only. -/
def RelatesContinuous (m : Model) : Prop :=
  ∀ eq ∈ m.equations, ∀ d x : Expr, eq.SaysDerivative d x → ∃ v w, m.Differentiates v w ∧
    (m.store.get v).symbol = d ∧ (m.store.get w).symbol = x

section LastPass

variable {g : Graph} {m : Model} (hlinked : m.Linked) (happart : m.RegisteredApart)
  (hstated : m.StatedIn g) (hrelates : m.RelatesContinuous)
include hlinked happart hstated hrelates

/-- A side of a relation that has the symbol of a registered variable is that variable. -/
theorem exists_differentiates {r : DerivativeRelation} (hr : r ∈ m.relations) {v : VarId}
    (hv : v ∈ m.registered) :
    (r.derivative.same (m.store.get v).symbol = true → ∃ x, m.Differentiates v x) ∧
    (r.differentiated.same (m.store.get v).symbol = true → ∃ d, m.Differentiates d v) := by
  obtain ⟨eq, heq, hrelation⟩ := (hlinked.relations r).1 hr
  obtain ⟨d, x, hdifferentiates, hd, hx⟩ :=
    hrelates eq heq _ _ (DerivativeRelation.ofEquation?_eq_some_iff.1 hrelation)
  have hself {w : VarId} (hw : w ∈ m.registered)
      (hsame : (m.store.get w).symbol.same (m.store.get v).symbol = true) : w = v :=
    happart.eq_of_symbol hw hv
      (Graph.eq_of_id_eq (hstated.symbol_mem w hw) (hstated.symbol_mem v hv) (beq_iff_eq.1 hsame))
  constructor
  · intro hsame
    rw [← hd] at hsame
    exact ⟨x, hself hdifferentiates.derivative_mem hsame ▸ hdifferentiates⟩
  · intro hsame
    rw [← hx] at hsame
    exact ⟨d, hself hdifferentiates.differentiated_mem hsame ▸ hdifferentiates⟩

/-- After the last pass a continuous variable has the kind that the relations make it, unless it is
    both a derivative and differentiated. -/
theorem resolveLinks_kind_eq_or {v : VarId} (hv : v ∈ m.registered)
    (hcontinuous : (m.store.get v).IsContinuous) :
    (m.resolveLinks.2.store.get v).kind = some ((m.store.get v).roleKind m.relations) ∨
      ((∃ x, m.Differentiates v x) ∧ (∃ d, m.Differentiates d v) ∧
        (m.store.get v).roleKind m.relations = .derivative ∧
        (m.resolveLinks.2.store.get v).kind = some .differentiated) := by
  have hupdates := Updates.resolveLinks m
  have hmade := (hupdates.cells v).toSameMake
  have hdifferentiates {r : DerivativeRelation} (hr : r ∈ m.relations) :=
    exists_differentiates hlinked happart hstated hrelates hr hv
  have hdecided : ∀ r ∈ m.relations, r.derivative.same (m.store.get v).symbol = true ∨
      r.differentiated.same (m.store.get v).symbol = true → m.resolveLinks.2.IsDecided v := by
    rintro r hr (hsame | hsame)
    · obtain ⟨x, hstates⟩ := (hdifferentiates hr).1 hsame
      exact (hstates.joined_resolveLinks hlinked happart).derivative_decided
    · obtain ⟨d, hstates⟩ := (hdifferentiates hr).2 hsame
      exact (hstates.joined_resolveLinks hlinked happart).differentiated_decided
  have hkind := (hlinked.resolveLinks happart.exist).kind_eq_or (v := v)
  rw [m.resolveLinks_rest.1, hupdates.relations_eq, hmade.isContinuous_iff, hmade.symbol,
    hmade.roleKind_eq fun _ => Iff.rfl] at hkind
  refine (hkind hv hcontinuous hdecided).imp id ?_
  rintro ⟨hderivative, hdifferentiated, hlast⟩
  obtain ⟨r, hr, hsame⟩ := Array.any_eq_true'.1 hderivative
  obtain ⟨r', hr', hsame'⟩ := Array.any_eq_true'.1 hdifferentiated
  refine ⟨(hdifferentiates hr).1 hsame, (hdifferentiates hr').2 hsame', ?_, hlast⟩
  rw [Variable.roleKind, VariableKind.ofRole, if_pos hderivative]

end LastPass

/-- In every run that sets no link by hand, and in which all symbols are nodes of one graph and the
    equations relate registered continuous variables only, each of these ends with the kind that it is
    classified as over all relations, or it is a derivative and has one and ends as differentiated. A
    run that registers the same variables after adding the same equations ends with the kinds of the
    classification throughout. -/
theorem Reachable.resolveLinks_kinds {g : Graph} {m : Model}
    (h : m.Reachable fun _ op => ¬ op.LinksByHand) (hstated : m.StatedIn g)
    (hrelates : m.RelatesContinuous) :
    ∀ v ∈ m.registered, (m.store.get v).IsContinuous →
      ∃ c, classify m.resolveLinks.2.store (m.resolveLinks.2.store.get v) m.relations = .ok c ∧
        ((m.resolveLinks.2.store.get v).kind = some c.kind ∨
          ((∃ x, m.Differentiates v x) ∧ (∃ d, m.Differentiates d v) ∧ c.kind = .derivative ∧
            (m.resolveLinks.2.store.get v).kind = some .differentiated)) ∧
        ∀ first : Model,
          first.Reachable (fun m op => ¬ op.LinksByHand ∧ op.EquationsFirst m) →
          first.registered.toList.Perm m.registered.toList → first.equations.Perm m.equations →
          (m.store.get v).SameMake (first.store.get v) →
          (first.resolveLinks.2.store.get v).kind = some c.kind := by
  intro v hv hcontinuous
  have hupdates := Updates.resolveLinks m
  have hmade := (hupdates.cells v).toSameMake
  obtain ⟨c, hclassify, hkind⟩ := (h.linked.resolveLinks h.registeredApart.exist).classify_eq
    (hmade.isContinuous_iff.2 hcontinuous)
  rw [hupdates.relations_eq] at hclassify hkind
  rw [hmade.roleKind_eq fun _ => Iff.rfl] at hkind
  refine ⟨c, hclassify, ?_, ?_⟩
  · rw [hkind]
    exact resolveLinks_kind_eq_or h.linked h.registeredApart hstated hrelates hv hcontinuous
  · intro first hfirst hregistered hequations hsame
    have hlinked : first.Linked := Reachable.linked (hfirst.mono fun _ _ hop => hop.1)
    have hmem : v ∈ first.registered := by
      rw [← Array.mem_toList_iff] at hv ⊢
      exact hregistered.mem_iff.2 hv
    have hrelations (r : DerivativeRelation) : r ∈ first.relations ↔ r ∈ m.relations := by
      simp only [hlinked.relations, h.linked.relations, hequations.mem_iff]
    obtain ⟨_, _, heq⟩ := (hfirst.settled.relinks_resolveLinks hlinked).cells v
    rw [heq, hkind, ← hsame.roleKind_eq hrelations]
    exact hfirst.settled v hmem (hsame.isContinuous_iff.2 hcontinuous)

/-! ### A chain that is linked from its end -/

theorem lateChain_relatesContinuous : lateChain.RelatesContinuous := by
  intro eq heq d x h
  obtain ⟨hvelocity, hacceleration⟩ := lateChain_differentiates
  rcases lateChain_saysDerivative heq h with ⟨rfl, rfl⟩ | ⟨rfl, rfl⟩
  · exact ⟨⟨2⟩, ⟨1⟩, hacceleration, rfl, rfl⟩
  · exact ⟨⟨1⟩, ⟨0⟩, hvelocity, rfl, rfl⟩

theorem earlyChain_equationsFirst :
    earlyChain.Reachable fun m op => ¬ op.LinksByHand ∧ op.EquationsFirst m := by
  have hmade : (made [(1, "x"), (2, "v"), (3, "a")]).Reachable fun m op =>
      ¬ op.LinksByHand ∧ op.EquationsFirst m :=
    made_reachable _ fun _ id name => ⟨not_linksByHand_continuousVariable id name, trivial⟩
  have hstated := (hmade.step (.addDaeEquation velocityEquation) trivial ⟨id, rfl⟩).step
    (.addDaeEquation accelerationEquation) trivial ⟨id, rfl⟩
  refine hstated.foldl [.addVariable ⟨0⟩, .addVariable ⟨1⟩, .addVariable ⟨2⟩] ?_ ?_
  · have hsize : ((Operation.addDaeEquation accelerationEquation).run
        ((Operation.addDaeEquation velocityEquation).run
          (made [(1, "x"), (2, "v"), (3, "a")]))).store.cells.size = 3 := rfl
    simp [Operation.Valid, hsize]
  · simp [Operation.LinksByHand, Operation.EquationsFirst]

/-- With the equations first, `v` has the kind that it is classified as over all relations. -/
theorem resolveLinks_kinds_chain : ∃ c,
    classify lateChain.resolveLinks.2.store (lateChain.resolveLinks.2.store.get ⟨1⟩)
      lateChain.relations = .ok c ∧
    (earlyChain.resolveLinks.2.store.get ⟨1⟩).kind = some c.kind := by
  have hmem := lateChain_differentiates.1.derivative_mem
  obtain ⟨c, hclassify, -, hfirst⟩ := lateChain_reachable.resolveLinks_kinds lateChain_statedIn
    lateChain_relatesContinuous ⟨1⟩ hmem (lateChain_variables _ hmem).2
  refine ⟨c, hclassify, hfirst earlyChain earlyChain_equationsFirst ?_ ?_ (chains_made _ hmem)⟩
  · rw [earlyChain_registered, lateChain_registered]
  · rw [earlyChain_equations, lateChain_equations]
    exact .swap _ _ []

/-- With the equations last, `v` ends as differentiated, though it is a derivative of a chain in which
    no symbol is the derivative of two symbols or has two derivatives. -/
theorem resolveLinks_kinds_lateChain :
    lateChain.Reachable (fun _ op => ¬ op.LinksByHand) ∧ lateChain.DerivativesOnce ∧
    lateChain.RelatesContinuous ∧
    (lateChain.resolveLinks.2.store.get ⟨1⟩).kind = some .differentiated ∧
    (earlyChain.resolveLinks.2.store.get ⟨1⟩).kind = some .derivative ∧
    (classify lateChain.resolveLinks.2.store (lateChain.resolveLinks.2.store.get ⟨1⟩)
      lateChain.relations).toOption.map (·.kind) = some .derivative :=
  ⟨lateChain_reachable, lateChain_derivativesOnce, lateChain_relatesContinuous, rfl, rfl, rfl⟩

end Model

end FlatDae
