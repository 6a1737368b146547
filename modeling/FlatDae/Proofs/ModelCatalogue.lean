/-
Module: FlatDae.Proofs.ModelCatalogue
Purpose: What can be looked up in a model. However a model comes about, registrations that were refused
  included, its variables go by different names and are found under them; each of them has one kind,
  under which it is listed in the order of registration; and its type is the one that the model has
  under the name of that type, and of the variable's domain.
Main exports: Operation.RetypesByHand, Model.Catalogued, Operation.run_catalogued,
  Model.variablesOfKind_perm, Model.Catalogue, Model.Reachable.catalogue
-/
import FlatDae.Proofs.LinkSoundness
import FlatDae.Proofs.TypeKeeping

namespace FlatDae

namespace Operation

/-- Whether the operation changes the type of a registered variable by hand. -/
def RetypesByHand (m : Model) : Operation → Prop
  | .setDeclaredType v _ => v ∈ m.registered
  | _ => False

end Operation

/-! ### The types of registered variables -/

open Model in
/-- Once a variable is registered, operations leave its type as it is. -/
theorem Operation.run_declaredType {m : Model} (happart : m.RegisteredApart) {op : Operation}
    (hhand : ¬ op.RetypesByHand m) {v : VarId} (hv : v ∈ m.registered) :
    ((op.run m).store.get v).declaredType = (m.store.get v).declaredType := by
  have heffect := op.effect m
  generalize op.run m = m' at heffect ⊢
  cases heffect with
  | create new => exact congrArg _ (Variables.get_create _ new (happart.exist v hv))
  | setDeclaredType w type =>
      have hne : w ≠ v := fun heq => hhand (show w ∈ m.registered from heq ▸ hv)
      exact congrArg _ (Variables.get_modify_of_ne _ hne _)
  | setAttribute w name value => exact Variables.get_modify_same _ w v fun _ => rfl
  | setDerivative w derivative => exact Variables.get_modify_same _ w v fun _ => rfl
  | setDifferentiated w differentiated => exact Variables.get_modify_same _ w v fun _ => rfl
  | setAlias w target negated => exact Variables.get_modify_same _ w v fun _ => rfl
  | register w classification type types hfree hclassify hassign =>
      -- the name of `w` was free, so `w` is not the registered `v`, and a link to `v` leaves its type
      have hne : w ≠ v := fun heq => happart.not_mem_registered hfree (heq ▸ hv)
      rw [← prepare_get_of_ne m hne classification type types]
      exact ((Updates.linkPartner _ w classification).cells v).declaredType
  | addInitialEquation eq => exact ((KeepsGiven.learnRelation m eq).cells v).declaredType
  | addDaeEquation eq => exact ((KeepsGiven.learnRelation m eq).cells v).declaredType
  | resolveLinks => exact ((Updates.resolveLinks m).cells v).declaredType
  | calculate op => exact ((KeepsGiven.calculate m).cells v).declaredType
  | _ => rfl

/-! ### The entry of a variable -/

namespace Model

/-- The variable has a kind, and a type of its domain that the model has under the type's name. -/
structure Catalogued (m : Model) (v : VarId) : Prop where
  kind : ∃ kind, (m.store.get v).kind = some kind
  type : ∃ type, (m.store.get v).declaredType = some type ∧ m.types.get? type.name = some type ∧
    type.domain = (m.store.get v).domain

/-- A variable keeps its entry if its kind at most evolves and its type is still there. -/
theorem Catalogued.mono {m m' : Model} {v : VarId} (h : m.Catalogued v)
    (hmake : (m.store.get v).SameMake (m'.store.get v))
    (hkind : (m.store.get v).KindEvolves (m'.store.get v))
    (htype : (m'.store.get v).declaredType = (m.store.get v).declaredType)
    (hextends : m.types.Extends m'.types) : m'.Catalogued v where
  kind := by
    rcases hkind with hsame | ⟨-, new, -, hnew, -⟩
    · exact hsame ▸ h.kind
    · exact ⟨new, hnew⟩
  type := by
    obtain ⟨type, hdeclared, hfound, hdomain⟩ := h.type
    exact ⟨type, htype.trans hdeclared, hextends _ _ hfound, hdomain.trans hmake.domain.symm⟩

/-- A variable that is registered gets its entry: its class is its kind, and its type is the one that the
    registry assigns. -/
theorem Catalogued.register {m : Model} {v : VarId} (hexist : v.index < m.store.cells.size)
    {classification : Classification} {type : VariableType} {types : TypeRegistry}
    (hdomain : type.domain = (m.store.get v).domain) (hfound : types.get? type.name = some type) :
    (m.register v classification type types).Catalogued v := by
  have hupdated := (Updates.linkPartner (m.prepare v classification type types) v classification).cells v
  have hprepared : (m.prepare v classification type types).Catalogued v := by
    refine ⟨⟨classification.kind, ?_⟩, type, ?_, ?_, ?_⟩
    · rw [prepare_get_self m hexist]
    · rw [prepare_get_self m hexist]
    · rw [prepare_types]
      exact hfound
    · rw [prepare_get_self m hexist]
      exact hdomain
  refine hprepared.mono hupdated.toSameMake (.of_updated hupdated) hupdated.declaredType ?_
  have htypes : (m.register v classification type types).types =
      (m.prepare v classification type types).types :=
    (linkPrepared_types m v classification type types).trans
      (prepare_types m v classification type types).symm
  rw [htypes]
  exact .refl _

end Model

open Model in
/-- Every operation leaves the entries of registered variables in place, and makes one for the variable
    that it registers. -/
theorem Operation.run_catalogued {m : Model} (happart : m.RegisteredApart) (hlawful : m.types.Lawful)
    (h : ∀ v ∈ m.registered, m.Catalogued v) {op : Operation} (hvalid : op.Valid m)
    (hhand : ¬ op.RetypesByHand m) : ∀ v ∈ (op.run m).registered, (op.run m).Catalogued v := by
  have hold {v : VarId} (hv : v ∈ m.registered) : (op.run m).Catalogued v :=
    (h v hv).mono ((run_made m op).2 v (happart.exist v hv)) (op.run_kindsEvolve happart v hv).2
      (run_declaredType happart hhand hv) (op.run_types hlawful).2
  intro v hv
  rcases op.run_keeps_or m with hkeeps | ⟨w, classification, type, types, rfl, -, -, hassign, heq⟩
  · exact hold (hkeeps.registered ▸ hv)
  · rw [heq] at hv hold ⊢
    rcases Array.mem_push.1 hv with hmem | rfl
    · rw [(Keeps.linkPrepared m w classification type types).registered] at hmem
      exact hold hmem
    · obtain ⟨hdomain, hgains⟩ := hlawful.assign_spec hassign
      exact .register hvalid hdomain hgains.found

namespace Model

/-- So every run gives all registered variables their entries. -/
theorem Reachable.catalogued {m : Model} (h : m.Reachable fun m op => ¬ op.RetypesByHand m) :
    ∀ v ∈ m.registered, m.Catalogued v := by
  induction h with
  | start => exact fun v hv => by simp at hv
  | step op hreached hvalid hhand ih =>
      exact op.run_catalogued (Runs.registeredApart registeredApart_empty hreached)
        (Runs.types TypeRegistry.lawful_empty hreached).1 ih hvalid hhand

/-! ### Lists by kind -/

theorem mem_variablesOfKind {m : Model} {kind : VariableKind} {v : VarId} :
    v ∈ m.variablesOfKind kind ↔ v ∈ m.registered ∧ (m.store.get v).kind = some kind := by
  rw [variablesOfKind, List.mem_filter, Array.mem_toList_iff, beq_iff_eq]

/-- The lists of all kinds, one after the other, have every variable that has a kind once. -/
theorem variablesOfKind_perm {m : Model} (hdistinct : m.registered.toList.Nodup)
    (hkind : ∀ v ∈ m.registered, ∃ kind, (m.store.get v).kind = some kind) :
    (VariableKind.all.flatMap m.variablesOfKind).Perm m.registered.toList := by
  have hnodup : (VariableKind.all.flatMap m.variablesOfKind).Nodup := by
    refine List.nodup_flatMap.2 ⟨fun kind _ => hdistinct.filter _, ?_⟩
    have hall : VariableKind.all.Nodup := by decide
    refine hall.imp fun {a b} hne v hva hvb => hne ?_
    exact Option.some.inj ((mem_variablesOfKind.1 hva).2.symm.trans (mem_variablesOfKind.1 hvb).2)
  refine (List.perm_ext_iff_of_nodup hnodup hdistinct).2 fun v => ?_
  rw [List.mem_flatMap, Array.mem_toList_iff]
  constructor
  · rintro ⟨kind, -, hv⟩
    exact (mem_variablesOfKind.1 hv).1
  · intro hv
    obtain ⟨kind, hsome⟩ := hkind v hv
    exact ⟨kind, VariableKind.mem_all kind, mem_variablesOfKind.2 ⟨hv, hsome⟩⟩

/-! ### The catalogue of a model -/

/-- The index leads from names to variables and has nothing else, types of variables are those of the
    model, and kinds divide the variables into lists. -/
structure Catalogue (m : Model) : Prop where
  indexed : m.Indexed
  names : (m.registered.toList.map fun v => (m.store.get v).name).Nodup
  byName : ∀ name v, m.findVariable? name = some v ↔ v ∈ m.registered ∧ (m.store.get v).name = name
  types : ∀ v ∈ m.registered, ∃ type, (m.store.get v).declaredType = some type ∧
    m.types.get? type.name = some type ∧ type.domain = (m.store.get v).domain
  kinds : ∀ v ∈ m.registered, ∃ kind, (m.store.get v).kind = some kind ∧
    ∀ kind', v ∈ m.variablesOfKind kind' ↔ kind' = kind
  /-- The lists of all kinds together have every registered variable once. -/
  split : (VariableKind.all.flatMap m.variablesOfKind).Perm m.registered.toList
  /-- Each list is in the order of registration. -/
  ordered : ∀ kind, (m.variablesOfKind kind).Sublist m.registered.toList

/-- Every model that comes about without changing the type of a registered variable by hand has its
    catalogue, whether the operations before succeeded or failed. -/
theorem Reachable.catalogue {m : Model} (h : m.Reachable fun m op => ¬ op.RetypesByHand m) :
    m.Catalogue where
  indexed := h.registeredApart.indexed
  names := h.registeredApart.names
  byName := fun _ _ => h.registeredApart.findVariable?_eq_some_iff
  types := fun v hv => (h.catalogued v hv).type
  kinds := by
    intro v hv
    obtain ⟨kind, hkind⟩ := (h.catalogued v hv).kind
    refine ⟨kind, hkind, fun kind' => ?_⟩
    rw [mem_variablesOfKind, hkind]
    exact ⟨fun hmem => (Option.some.inj hmem.2).symm, fun heq => ⟨hv, congrArg some heq.symm⟩⟩
  split := variablesOfKind_perm (List.Nodup.of_map _ h.registeredApart.names)
    fun v hv => (h.catalogued v hv).kind
  ordered := fun _ => List.filter_sublist

/-- Of two variables called `x` only the first gets registered. -/
def namesakes : Model :=
  [.addVariable ⟨0⟩, .addVariable ⟨1⟩].foldl Operation.run (made [(1, "x"), (2, "x")])

theorem namesakes_reachable : namesakes.Reachable fun m op => ¬ op.RetypesByHand m := by
  refine Runs.foldl (made_reachable _ fun _ _ _ => id) _ ?_ ?_ <;>
    simp [Operation.Valid, Operation.RetypesByHand, size_made]

theorem catalogue_namesakes :
    namesakes.Catalogue ∧ namesakes.findVariable? "x" = some ⟨0⟩ ∧
      namesakes.variablesOfKind .algebraic = [⟨0⟩] ∧ namesakes.registered = #[⟨0⟩] :=
  ⟨Reachable.catalogue namesakes_reachable, by rfl, by rfl, by rfl⟩

end Model

end FlatDae
