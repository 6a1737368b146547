/-
Module: FlatDae.Proofs.DefinitionOrder
Purpose: The order in which definitions are evaluated. Definitions of different symbols of one graph
  are ordered so that each comes after those whose symbols its value mentions; there is such an order
  exactly if there is one for the same definitions listed otherwise.
Main exports: Definition.DrawnFrom, Ordered, definitionOrder_spec,
  definitionOrder_isOk_of_ordered
-/
import FlatDae.Model.Parameters
import FlatDae.Proofs.DependencyOrder
import FlatDae.Proofs.SubstitutionGraph

namespace FlatDae

open FlatDae.Expr (Graph)

namespace Definition

/-- The definitions are of different symbols of the graph, and their values are nodes of it. -/
structure DrawnFrom (g : Graph) (ds : List Definition) : Prop where
  symbols : ∀ d ∈ ds, d.symbol ∈ g ∧ d.symbol.isSymbol = true
  values : ∀ d ∈ ds, d.value ∈ g
  distinct : (ds.map fun d => d.symbol.id).Nodup

theorem DrawnFrom.of_perm {g : Graph} {ds ds' : List Definition} (h : DrawnFrom g ds)
    (hperm : ds'.Perm ds) : DrawnFrom g ds' where
  symbols := fun d hd => h.symbols d (hperm.mem_iff.1 hd)
  values := fun d hd => h.values d (hperm.mem_iff.1 hd)
  distinct := (hperm.map _).nodup_iff.2 h.distinct

theorem DrawnFrom.sublist {g : Graph} {ds ds' : List Definition} (h : DrawnFrom g ds)
    (hsub : ds'.Sublist ds) : DrawnFrom g ds' where
  symbols := fun d hd => h.symbols d (hsub.mem hd)
  values := fun d hd => h.values d (hsub.mem hd)
  distinct := h.distinct.sublist (hsub.map _)

end Definition

/-- Every definition of the list stands after all definitions whose symbols its value mentions. -/
def Ordered (ds : List Definition) : Prop :=
  ∀ before d, before ++ [d] <+: ds → ∀ d' ∈ ds, d'.symbol ∈ d.value.symbols → d' ∈ before

/-- The definitions up to a place are ordered among themselves. -/
theorem Ordered.of_append {before rest : List Definition} (h : Ordered (before ++ rest)) :
    Ordered before :=
  fun _ d hfirst d' hd' => h _ d (hfirst.trans (List.prefix_append _ _)) d' (List.mem_append_left _ hd')

/-- In an ordered list a definition comes later than those it refers to. -/
theorem Ordered.idxOf_lt {g : Graph} {order : List Definition} (h : Ordered order)
    (hdrawn : Definition.DrawnFrom g order) {d d' : Definition} (hd : d ∈ order) (hd' : d' ∈ order)
    (hrefers : d'.symbol ∈ d.value.symbols) :
    (order.map fun d => d.symbol.id).idxOf d'.symbol.id <
      (order.map fun d => d.symbol.id).idxOf d.symbol.id := by
  obtain ⟨before, after, rfl⟩ := List.append_of_mem hd
  have hmem : d'.symbol.id ∈ before.map fun d => d.symbol.id :=
    List.mem_map.2 ⟨d', h before d ⟨after, by simp⟩ d' hd' hrefers, rfl⟩
  have hnot : d.symbol.id ∉ before.map fun d => d.symbol.id := by
    have hdistinct := hdrawn.distinct
    rw [List.map_append] at hdistinct
    exact fun hmem => (List.nodup_append.1 hdistinct).2.2 _ hmem _ List.mem_cons_self rfl
  rw [List.map_append, List.idxOf_append_of_mem hmem, List.idxOf_append_of_notMem hnot, List.map_cons,
    List.idxOf_cons_self]
  exact Nat.lt_of_lt_of_le (List.idxOf_lt_length_iff.2 hmem) (Nat.le_add_right _ _)

namespace Model

open Definition

/-- The index of definitions by the identities of their symbols. -/
def definitionIndex (ds : Array Definition) : Std.HashMap NodeId Nat :=
  ds.zipIdx.foldl (fun index (d, i) => index.insert d.symbol.id i) ∅

/-- The index gives for an identity the position of the definition of its symbol. -/
theorem definitionIndex_eq_some_iff {ds : Array Definition}
    (h : (ds.toList.map fun d => d.symbol.id).Nodup) (id : NodeId) (j : Nat) :
    (definitionIndex ds)[id]? = some j ↔ ∃ d, ds.toList[j]? = some d ∧ d.symbol.id = id := by
  have hlookup : (definitionIndex ds)[id]? =
      (ds.toList.zipIdx.reverse.find? fun p => p.1.symbol.id == id).map Prod.snd := by
    rw [definitionIndex, ← Array.foldl_toList, Array.toList_zipIdx]
    rw [Expr.foldl_insert_getElem? (fun p : Definition × Nat => p.1.symbol.id) Prod.snd]
    simp
  have hfound {p : Definition × Nat}
      (hfind : (ds.toList.zipIdx.reverse.find? fun p => p.1.symbol.id == id) = some p) :
      ds.toList[p.2]? = some p.1 ∧ p.1.symbol.id = id :=
    ⟨List.mem_zipIdx_iff_getElem?.1 (List.mem_reverse.1 (List.mem_of_find?_eq_some hfind)),
      by simpa using List.find?_some hfind⟩
  rw [hlookup, Option.map_eq_some_iff]
  constructor
  · rintro ⟨p, hfind, rfl⟩
    exact ⟨p.1, hfound hfind⟩
  · rintro ⟨d, hd, hid⟩
    cases hfind : ds.toList.zipIdx.reverse.find? fun p => p.1.symbol.id == id with
    | none =>
        have hmem : (d, j) ∈ ds.toList.zipIdx.reverse :=
          List.mem_reverse.2 (List.mem_zipIdx_iff_getElem?.2 hd)
        exact absurd (by simpa using hid) (List.find?_eq_none.1 hfind _ hmem)
    | some p =>
        obtain ⟨hp, hpid⟩ := hfound hfind
        refine ⟨p, rfl, (List.getElem?_inj ?_ h).1 ?_⟩
        · rw [List.length_map]
          exact (List.getElem?_eq_some_iff.1 hp).1
        · rw [List.getElem?_map, List.getElem?_map, hp, hd, Option.map_some, Option.map_some, hpid, hid]

/-- One definition refers to another exactly if its value mentions the symbol of the other. -/
theorem refers_references_iff {g : Graph} {ds : Array Definition} (h : DrawnFrom g ds.toList)
    {i j : Nat} {d : Definition} (hi : ds.toList[i]? = some d) :
    Refers (references ds) i j ↔ ∃ d', ds.toList[j]? = some d' ∧ d'.symbol ∈ d.value.symbols := by
  have hd : d ∈ ds.toList := List.mem_of_getElem? hi
  have hsize : (references ds).size = ds.size := Array.size_map
  have hreferences : (references ds).getD i [] =
      d.value.symbols.filterMap fun s => (definitionIndex ds)[s.id]? := by
    rw [Array.getElem?_toList] at hi
    rw [Array.getD_eq_getD_getElem?, references, Array.getElem?_map, hi]
    rfl
  rw [Refers, hreferences, hsize, List.mem_filterMap]
  constructor
  · rintro ⟨⟨s, hs, hindex⟩, -⟩
    obtain ⟨d', hd', hid⟩ := (definitionIndex_eq_some_iff h.distinct _ _).1 hindex
    have hs' : s ∈ g :=
      Graph.mem_of_within (h.values d hd) ((Expr.mem_symbols (h.values d hd)).1 hs).2
    have hsame := Graph.eq_of_id_eq (h.symbols d' (List.mem_of_getElem? hd')).1 hs' hid
    exact ⟨d', hd', hsame ▸ hs⟩
  · rintro ⟨d', hd', hmem⟩
    exact ⟨⟨_, hmem, (definitionIndex_eq_some_iff h.distinct _ _).2 ⟨d', hd', rfl⟩⟩,
      (List.getElem?_eq_some_iff.1 hd').1⟩

/-- The definition at a position. -/
theorem getD_eq_of_getElem? {ds : Array Definition} {i : Nat} {d : Definition}
    (h : ds.toList[i]? = some d) : ds.getD i default = d := by
  rw [Array.getElem?_toList] at h
  rw [Array.getD_eq_getD_getElem?, h, Option.getD_some]

/-- The order of definitions has all of them and no other. -/
theorem definitionOrder_perm {ds : Array Definition} {order : List Definition}
    (h : definitionOrder ds = .ok order) : order.Perm ds.toList := by
  have hspec := dependencyOrder_spec (references ds)
  unfold definitionOrder at h
  cases hfound : dependencyOrder (references ds) with
  | error cycle =>
      rw [hfound] at h
      cases h
  | ok positions =>
      rw [hfound] at h hspec
      obtain rfl := Except.ok.inj h
      have hsize : (references ds).size = ds.size := Array.size_map
      have hall : (List.range ds.size).map (fun i => ds.getD i default) = ds.toList := by
        apply List.ext_getElem (by simp)
        intro i hi hi'
        simp only [List.getElem_map, List.getElem_range]
        exact getD_eq_of_getElem? (List.getElem?_eq_getElem hi')
      rw [← hall, ← hsize]
      exact hspec.1.map _

/-- Definitions that have no order refer to each other around a cycle. -/
theorem definitionOrder_eq_error {ds : Array Definition} {error : ModelError}
    (h : definitionOrder ds = .error error) : ∃ cycle, IsCycle (references ds) cycle ∧
      error = .cyclicDependency (cycle.map fun i => (ds.getD i default).name) := by
  have hspec := dependencyOrder_spec (references ds)
  unfold definitionOrder at h
  cases hfound : dependencyOrder (references ds) with
  | error cycle =>
      rw [hfound] at h hspec
      exact ⟨cycle, hspec, (Except.error.inj h).symm⟩
  | ok positions =>
      rw [hfound] at h
      cases h

/-- Definitions are ordered, all of them, so that each comes after those it refers to, or there is a
    cycle among them. -/
theorem definitionOrder_spec {g : Graph} {ds : Array Definition} (h : DrawnFrom g ds.toList) :
    match definitionOrder ds with
    | .ok order => order.Perm ds.toList ∧ Ordered order
    | .error error => ∃ cycle, IsCycle (references ds) cycle ∧
        error = .cyclicDependency (cycle.map fun i => (ds.getD i default).name) := by
  cases hfound : definitionOrder ds with
  | error error => exact definitionOrder_eq_error hfound
  | ok placed =>
      have hmap := definitionOrder_perm hfound
      have hspec := dependencyOrder_spec (references ds)
      unfold definitionOrder at hfound
      cases hpositions : dependencyOrder (references ds) with
      | error cycle =>
          rw [hpositions] at hfound
          cases hfound
      | ok order =>
          rw [hpositions] at hfound hspec
          obtain rfl := Except.ok.inj hfound
          obtain ⟨hperm, hsorted⟩ := hspec
          refine ⟨hmap, ?_⟩
          rintro before d ⟨after, hsplit⟩ d' hd' hmem
          rw [List.append_assoc] at hsplit
          obtain ⟨front, back, horder, rfl, hback⟩ := List.map_eq_append_iff.1 hsplit.symm
          obtain ⟨i, back, rfl, rfl, -⟩ := List.map_eq_cons_iff.1 hback
          have hi : i < ds.toList.length := by
            have hmemOrder : i ∈ order.toList := horder ▸ List.mem_append_right _ List.mem_cons_self
            simpa [references] using List.mem_range.1 (hperm.mem_iff.1 hmemOrder)
          obtain ⟨j, hj, hjd⟩ := List.mem_iff_getElem.1 (hmap.mem_iff.1 hd')
          have hjd' : ds.toList[j]? = some d' := by rw [List.getElem?_eq_getElem hj, hjd]
          have hrefers : Refers (references ds) i j := by
            refine (refers_references_iff h (List.getElem?_eq_getElem hi)).2 ⟨d', hjd', ?_⟩
            rw [← getD_eq_of_getElem? (List.getElem?_eq_getElem hi)]
            exact hmem
          have hfront : j ∈ front := by
            refine hsorted front i ?_ j hrefers
            rw [horder]
            exact ⟨back, by simp⟩
          exact List.mem_map.2 ⟨j, hfront, getD_eq_of_getElem? hjd'⟩

/-- Definitions of which there is an ordered list are ordered, however they are listed. -/
theorem definitionOrder_isOk_of_ordered {g : Graph} {ds : Array Definition} {order : List Definition}
    (h : DrawnFrom g ds.toList) (hperm : order.Perm ds.toList) (hordered : Ordered order) :
    ∃ found, definitionOrder ds = .ok found := by
  have hacyclic : ∀ i, ¬ Relation.TransGen (Refers (references ds)) i i := by
    intro i hcycle
    -- along references the place in the ordered list goes down
    let place : Nat → Nat := fun k =>
      (order.map fun d => d.symbol.id).idxOf (ds.getD k default).symbol.id
    have hdecrease : ∀ a b, Refers (references ds) a b → place b < place a := by
      intro a b hab
      have ha : a < ds.toList.length := by
        simpa [references] using hab.lt_left
      obtain ⟨d', hb, hmem⟩ := (refers_references_iff h (List.getElem?_eq_getElem ha)).1 hab
      have hplace := hordered.idxOf_lt (h.of_perm hperm) (hperm.mem_iff.2 (List.getElem_mem ha))
        (hperm.mem_iff.2 (List.mem_of_getElem? hb)) hmem
      simp only [place, getD_eq_of_getElem? hb, getD_eq_of_getElem? (List.getElem?_eq_getElem ha)]
      exact hplace
    exact Nat.lt_irrefl _ (rank_lt_of_transGen hdecrease hcycle)
  obtain ⟨positions, hpositions⟩ := (dependencyOrder_isOk_iff (references ds)).2 hacyclic
  exact ⟨_, by rw [definitionOrder, hpositions]⟩

end Model

end FlatDae
