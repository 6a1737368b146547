/-
Module: FlatDae.Proofs.LinkSoundness
Purpose: The links that a run makes and the kinds that it changes. In a run without links by hand, every
  link joins two registered continuous variables along an equation, and both of them have kinds that
  links give. In any run at all, the kind of a registered variable changes once at most: a link decides
  a kind that was left to links, and nothing takes that back.
Main exports: Variable.KindEvolves, Model.KindsEvolve, Operation.run_kindsEvolve,
  Model.Runs.kindsEvolve, Model.LinkStated, Model.Reachable.links_stated
-/
import FlatDae.Proofs.LinkedRuns

namespace FlatDae

open FlatDae.Expr (Graph)

/-! ### Kinds that links decide -/

theorem VariableKind.eq_of_isUnlinked {kind : VariableKind} (h : kind.isUnlinked = true) :
    kind = .algebraic ∨ kind = .output := by
  cases kind <;> simp_all [isUnlinked]

namespace Variable

/-- The kind is the same, or it was that of a continuous variable without a derivative relation and is
    one that links give. -/
def KindEvolves (a b : Variable) : Prop :=
  b.kind = a.kind ∨ ∃ old new, a.kind = some old ∧ b.kind = some new ∧
    (old = .algebraic ∨ old = .output) ∧ (new = .derivative ∨ new = .differentiated)

namespace KindEvolves

variable {a b c : Variable}

theorem refl (a : Variable) : KindEvolves a a := Or.inl rfl

theorem of_updated (h : Updated a b) : KindEvolves a b := by
  rcases h.kind with hsame | ⟨old, new, hold, hnew, hunlinked, hlinked⟩
  · exact Or.inl hsame
  · exact Or.inr ⟨old, new, hold, hnew, VariableKind.eq_of_isUnlinked hunlinked, hlinked⟩

/-- A kind that has changed stays as it is: links leave the kinds that they give alone. -/
theorem eq_of_ne (h : KindEvolves a b) (hne : b.kind ≠ a.kind) (h' : KindEvolves b c) :
    c.kind = b.kind := by
  obtain ⟨_, new, -, hnew, -, hlinked⟩ := h.resolve_left hne
  rcases h' with hsame | ⟨old, _, hold, -, hunlinked, -⟩
  · exact hsame
  · obtain rfl := Option.some.inj (hnew.symm.trans hold)
    rcases hlinked with rfl | rfl <;> rcases hunlinked with heq | heq <;> cases heq

theorem trans (h : KindEvolves a b) (h' : KindEvolves b c) : KindEvolves a c := by
  by_cases hsame : b.kind = a.kind
  · rwa [KindEvolves, hsame] at h'
  · rw [KindEvolves, h.eq_of_ne hsame h']
    exact h

end KindEvolves

end Variable

namespace Model

/-- The registered variables stay registered, and their kinds at most evolve. -/
def KindsEvolve (m m' : Model) : Prop :=
  ∀ v ∈ m.registered, v ∈ m'.registered ∧ (m.store.get v).KindEvolves (m'.store.get v)

namespace KindsEvolve

variable {m m' m'' : Model}

theorem refl (m : Model) : KindsEvolve m m := fun _ hv => ⟨hv, .refl _⟩

theorem trans (h : KindsEvolve m m') (h' : KindsEvolve m' m'') : KindsEvolve m m'' := by
  intro v hv
  obtain ⟨hmem, hkind⟩ := h v hv
  obtain ⟨hmem', hkind'⟩ := h' v hmem
  exact ⟨hmem', hkind.trans hkind'⟩

theorem of_updates (h : Updates m m') : KindsEvolve m m' := by
  intro v hv
  have hregistered : m'.registered = m.registered := by rw [h.rest]
  exact ⟨hregistered ▸ hv, .of_updated (h.cells v)⟩

theorem of_keepsLinks (h : KeepsLinks m m') : KindsEvolve m m' :=
  fun v hv => ⟨h.registered ▸ hv, Or.inl (h.kind v hv)⟩

/-- A change of neither the variables nor the list of registered ones. -/
theorem of_eq (hstore : m'.store = m.store) (hregistered : m'.registered = m.registered) :
    KindsEvolve m m' :=
  fun _ hv => ⟨hregistered ▸ hv, hstore ▸ .refl _⟩

/-- A change of a variable in other respects. -/
theorem modify (m : Model) (v : VarId) {f : Variable → Variable}
    (hkind : ∀ var : Variable, (f var).kind = var.kind) : KindsEvolve m (m.modifyVariable v f) :=
  fun w hw => ⟨hw, Or.inl (m.store.get_modify_same v w hkind)⟩

theorem create (hexist : ∀ v ∈ m.registered, v.index < m.store.cells.size) (new : Variable) :
    KindsEvolve m (m.createVariable new).2 := by
  refine fun v hv => ⟨hv, Or.inl ?_⟩
  change ((m.store.create new).2.get v).kind = (m.store.get v).kind
  rw [Variables.get_create _ _ (hexist v hv)]

/-- Registration sets the kind of the new variable, which no link has to wait for, and may link it to
    one that was registered before. -/
theorem register {v : VarId} (hnew : v ∉ m.registered) (classification : Classification) (type : VariableType)
    (types : TypeRegistry) : KindsEvolve m (m.register v classification type types) := by
  intro w hw
  have hne : v ≠ w := fun heq => hnew (heq ▸ hw)
  have hupdated := (Updates.linkPartner (m.prepare v classification type types) v classification).cells w
  rw [prepare_get_of_ne m hne] at hupdated
  refine ⟨Array.mem_push_of_mem _ ?_, .of_updated hupdated⟩
  rwa [(Keeps.linkPrepared m v classification type types).registered]

end KindsEvolve

end Model

open Model in
/-- Every operation leaves the kinds of registered variables as they are or lets links decide them. -/
theorem Operation.run_kindsEvolve {m : Model} (happart : m.RegisteredApart) (op : Operation) :
    KindsEvolve m (op.run m) := by
  have heffect := op.effect m
  generalize op.run m = m' at heffect ⊢
  cases heffect with
  | nothing op => exact .refl m
  | makeNodes supply => exact .of_eq rfl rfl
  | create new => exact .create happart.exist new
  | setDeclaredType v type => exact .modify m v fun _ => rfl
  | setAttribute v name value => exact .modify m v fun _ => rfl
  | setDerivative v derivative => exact .modify m v fun _ => rfl
  | setDifferentiated v differentiated => exact .modify m v fun _ => rfl
  | setAlias v target negated => exact .modify m v fun _ => rfl
  | register v classification type types hfree hclassify hassign =>
      exact .register (happart.not_mem_registered hfree) classification type types
  | addInitialEquation eq => exact .of_keepsLinks (Learns.addInitialEquation m eq).toKeepsLinks
  | addDaeEquation eq => exact .of_keepsLinks (Learns.addDaeEquation m eq).toKeepsLinks
  | addType type types hadd => exact .of_eq rfl rfl
  | setFunction f => exact .of_eq rfl rfl
  | setTime symbol => exact .of_eq rfl rfl
  | resolveLinks => exact .of_updates (.resolveLinks m)
  | calculate op => exact .of_keepsLinks (.calculate m)

namespace Model

/-- So does every run. -/
theorem Runs.kindsEvolve {allowed : Model → Operation → Prop} {m m' : Model}
    (happart : m.RegisteredApart) (h : m.Runs allowed m') : KindsEvolve m m' := by
  induction h with
  | start => exact .refl m
  | step op hrun _ _ ih => exact ih.trans (op.run_kindsEvolve (hrun.registeredApart happart))

/-! ### Links that equations state -/

/-- Both variables are registered, continuous and of kinds that links give, and an equation says of
    their very symbols that `d` is the derivative of `x`. -/
structure LinkStated (m : Model) (d x : VarId) : Prop where
  derivative_mem : d ∈ m.registered
  differentiated_mem : x ∈ m.registered
  derivative_continuous : (m.store.get d).IsContinuous
  differentiated_continuous : (m.store.get x).IsContinuous
  derivative_kind : (m.store.get d).kind = some .derivative ∨ (m.store.get d).kind = some .differentiated
  differentiated_kind :
    (m.store.get x).kind = some .derivative ∨ (m.store.get x).kind = some .differentiated
  equation : ∃ eq ∈ m.equations, ∃ derivative differentiated : Expr,
    eq.SaysDerivative derivative differentiated ∧
      derivative.same (m.store.get d).symbol = true ∧ differentiated.same (m.store.get x).symbol = true

/-- A variable that can be linked and is decided has one of the two kinds that links give. -/
theorem IsDecided.kind_eq {m : Model} {v : VarId} (h : m.IsDecided v)
    (hlinkable : m.isLinkable v = true) :
    (m.store.get v).kind = some .derivative ∨ (m.store.get v).kind = some .differentiated := by
  obtain ⟨kind, hkind, hdecided⟩ := h
  rw [isLinkable, hkind] at hlinkable
  rw [hkind]
  exact (VariableKind.eq_of_isLinkable hlinkable hdecided).imp (congrArg some) (congrArg some)

/-- What is joined is joined along an equation. -/
theorem Joined.linkStated {m : Model} {d x : VarId} (h : m.Joined d x) (hlinked : m.Linked) :
    m.LinkStated d x where
  derivative_mem := h.derivative_mem
  differentiated_mem := h.differentiated_mem
  derivative_continuous := (hlinked.isLinkable_iff h.derivative_mem).1 h.derivative_linkable
  differentiated_continuous := (hlinked.isLinkable_iff h.differentiated_mem).1 h.differentiated_linkable
  derivative_kind := h.derivative_decided.kind_eq h.derivative_linkable
  differentiated_kind := h.differentiated_decided.kind_eq h.differentiated_linkable
  equation := by
    obtain ⟨r, hr, hdsame, hxsame⟩ := h.relation
    obtain ⟨eq, heq, hrelation⟩ := (hlinked.relations r).1 hr
    exact ⟨eq, heq, r.derivative, r.differentiated,
      DerivativeRelation.ofEquation?_eq_some_iff.1 hrelation, hdsame, hxsame⟩

/-- In every run that sets no link by hand, a link on either side is one that an equation states between
    registered continuous variables, whose kinds are those of linked variables. As the run goes on, a
    registered variable stays registered, its kind at most evolves, and once it has changed it does not
    change again. -/
theorem Reachable.links_stated {m : Model} (h : m.Reachable fun _ op => ¬ op.LinksByHand) :
    (∀ d x, (m.store.get x).derivative = some d ∨ (m.store.get d).differentiated = some x →
      m.LinkStated d x ∧ ∀ g : Graph, m.StatedIn g → m.Differentiates d x) ∧
    ∀ m', m.Runs (fun _ op => ¬ op.LinksByHand) m' → ∀ v ∈ m.registered,
      v ∈ m'.registered ∧ (m.store.get v).KindEvolves (m'.store.get v) ∧
      ((m'.store.get v).kind ≠ (m.store.get v).kind →
        ∀ m'', m'.Runs (fun _ op => ¬ op.LinksByHand) m'' →
          (m''.store.get v).kind = (m'.store.get v).kind) := by
  have hlinked := h.linked
  constructor
  · intro d x hlink
    have hjoined : m.Joined d x := hlink.elim hlinked.derivative hlinked.differentiated
    exact ⟨hjoined.linkStated hlinked, fun g hstated => hjoined.toRelated.differentiates hlinked hstated⟩
  · intro m' hrun v hv
    obtain ⟨hmem, hkind⟩ := hrun.kindsEvolve h.registeredApart v hv
    refine ⟨hmem, hkind, fun hchanged m'' hrun' => ?_⟩
    have happart' : m'.RegisteredApart := hrun.registeredApart h.registeredApart
    exact hkind.eq_of_ne hchanged (hrun'.kindsEvolve happart' v hmem).2

/-- The last pass links `v` to `x` and makes it differentiated, which it stays in whatever comes next. -/
theorem links_stated_chain :
    (Operation.resolveLinks.run lateChain).LinkStated ⟨1⟩ ⟨0⟩ ∧
    (lateChain.store.get ⟨1⟩).KindEvolves ((Operation.resolveLinks.run lateChain).store.get ⟨1⟩) ∧
    ∀ m, (Operation.resolveLinks.run lateChain).Runs (fun _ op => ¬ op.LinksByHand) m →
      (m.store.get ⟨1⟩).kind = some .differentiated := by
  have hlast : (Operation.resolveLinks.run lateChain).Reachable fun _ op => ¬ op.LinksByHand :=
    .step .resolveLinks lateChain_reachable trivial id
  have hlink : (((Operation.resolveLinks.run lateChain).store.get ⟨1⟩).differentiated = some ⟨0⟩) := rfl
  have hmem : (⟨1⟩ : VarId) ∈ lateChain.registered := lateChain_differentiates.1.derivative_mem
  have hlinked := (Reachable.links_stated hlast).1 ⟨1⟩ ⟨0⟩ (Or.inr hlink)
  obtain ⟨-, hevolves, hsettled⟩ := (Reachable.links_stated lateChain_reachable).2 _
    (.step .resolveLinks .start trivial id) ⟨1⟩ hmem
  have hbefore : (lateChain.store.get ⟨1⟩).kind = some .algebraic := rfl
  have hafter : ((Operation.resolveLinks.run lateChain).store.get ⟨1⟩).kind = some .differentiated := rfl
  refine ⟨hlinked.1, hevolves, fun m hrun => ?_⟩
  rw [← hafter]
  refine hsettled ?_ m hrun
  rw [hbefore, hafter]
  decide

end Model

end FlatDae
