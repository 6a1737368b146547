/-
Module: FlatDae.Proofs.DefinitionCycles
Purpose: When definitions can be ordered, said of what their values contain. Definitions of different
  symbols have an order exactly if none reaches itself by going from a value to the symbols in it. The
  order places every definition once, after all that its value contains; without one, the names that are
  reported go once around a real cycle and end where they began.
Main exports: Definition.RefersTo, Model.definitionOrder_decides
-/
import FlatDae.Proofs.DefinitionOrder

namespace FlatDae

open FlatDae.Expr (Graph)

/-- The value of the definition at place `i` contains the symbol that the one at place `j` defines. -/
def Definition.RefersTo (ds : Array Definition) (i j : Nat) : Prop :=
  ∃ d d', ds[i]? = some d ∧ ds[j]? = some d' ∧ d'.symbol.Within d.value

namespace Model

open Definition

variable {g : Graph} {ds : Array Definition}

/-- The references that are searched are those that the values make. -/
theorem refers_references (h : DrawnFrom g ds.toList) :
    Refers (references ds) = RefersTo ds := by
  funext i j
  apply propext
  constructor
  · intro hrefers
    have hi : i < ds.toList.length := by
      simpa [references] using hrefers.lt_left
    rcases (refers_references_iff h (List.getElem?_eq_getElem hi)).1 hrefers with ⟨d', hd', hmem⟩
    have hvalue := h.values _ (List.getElem_mem hi)
    exact ⟨ds.toList[i], d', by simp, by simpa using hd', ((Expr.mem_symbols hvalue).1 hmem).2⟩
  · rintro ⟨d, d', hd, hd', hwithin⟩
    rw [← Array.getElem?_toList] at hd hd'
    have hvalue := h.values d (List.mem_of_getElem? hd)
    have hsymbol := (h.symbols d' (List.mem_of_getElem? hd')).2
    exact (refers_references_iff h hd).2 ⟨d', hd', (Expr.mem_symbols hvalue).2 ⟨hsymbol, hwithin⟩⟩

/-- At a place of the list there is its definition. -/
theorem getElem?_eq_getD {i : Nat} (hi : i < ds.size) : ds[i]? = some (ds.getD i default) := by
  simp [hi]

/-- Definitions have an order exactly if the search finds one. -/
theorem definitionOrder_isOk_iff_search :
    (∃ order, definitionOrder ds = .ok order) ↔
      ∃ positions, dependencyOrder (references ds) = .ok positions := by
  unfold definitionOrder
  cases dependencyOrder (references ds) <;> simp

/-- Definitions of different symbols have an order exactly if no value leads back to its own symbol. The
    order has every place once, each after the places whose symbols its value contains; the names that
    are reported otherwise are those of different places, the first of them again at the end, each
    referred to by the one before it. -/
theorem definitionOrder_decides (h : DrawnFrom g ds.toList) :
    ((∃ order, definitionOrder ds = .ok order) ↔ ∀ i, ¬ Relation.TransGen (RefersTo ds) i i) ∧
    (∀ order, definitionOrder ds = .ok order → ∃ positions : List Nat,
      positions.Perm (List.range ds.size) ∧
      List.Forall₂ (fun i d => ds[i]? = some d) positions order ∧
      ∀ before i, before ++ [i] <+: positions → ∀ j, RefersTo ds i j → j ∈ before) ∧
    (∀ error, definitionOrder ds = .error error → ∃ first inner names,
      error = .cyclicDependency names ∧
      List.Forall₂ (fun i name => ∃ d, ds[i]? = some d ∧ d.name = name) (first :: inner ++ [first]) names ∧
      (first :: inner).Nodup ∧ (first :: inner ++ [first]).IsChain (RefersTo ds)) := by
  have hsize : (references ds).size = ds.size := Array.size_map
  have hspec := dependencyOrder_spec (references ds)
  refine ⟨?_, ?_, ?_⟩
  · rw [definitionOrder_isOk_iff_search, dependencyOrder_isOk_iff, refers_references h]
  · intro order horder
    unfold definitionOrder at horder
    cases hfound : dependencyOrder (references ds) with
    | error cycle => simp [hfound] at horder
    | ok positions =>
        simp only [hfound, Except.ok.injEq] at horder hspec
        rcases hspec with ⟨hperm, hsorted⟩
        rw [hsize] at hperm
        refine ⟨positions.toList, hperm, ?_, ?_⟩
        · rw [← horder, List.forall₂_map_right_iff, List.forall₂_same]
          exact fun i hi => getElem?_eq_getD (List.mem_range.1 (hperm.mem_iff.1 hi))
        · rw [Sorted, refers_references h] at hsorted
          exact hsorted
  · intro error herror
    rcases definitionOrder_eq_error herror with ⟨cycle, hcycle, rfl⟩
    have hplaces := hcycle.lt_size
    rcases hcycle with ⟨first, inner, rfl, hnodup, hchain⟩
    rw [refers_references h] at hchain
    refine ⟨first, inner, _, rfl, ?_, hnodup, hchain⟩
    rw [List.forall₂_map_right_iff, List.forall₂_same]
    exact fun i hi => ⟨_, getElem?_eq_getD (hsize ▸ hplaces i hi), rfl⟩

/-! ### A circle behind a definition -/

/-- The nodes `a`, `b`, `c` and `b + c`. -/
def circleNodes : List Expr :=
  [.symbol 4 "a", .symbol 5 "b", .symbol 6 "c", .binary 7 .add (.symbol 5 "b") (.symbol 6 "c")]

def circleGraph : Graph := .ofList circleNodes (by simp [circleNodes, Expr.children]) (by decide)

/-- `a = b + c`, `b = c` and `c = b`. -/
def circleDefinitions : Array Definition :=
  #[{ target := ⟨0⟩, name := "a", symbol := .symbol 4 "a"
      value := .binary 7 .add (.symbol 5 "b") (.symbol 6 "c"), dependent := true },
    { target := ⟨1⟩, name := "b", symbol := .symbol 5 "b", value := .symbol 6 "c", dependent := true },
    { target := ⟨2⟩, name := "c", symbol := .symbol 6 "c", value := .symbol 5 "b", dependent := true }]

theorem circleDefinitions_drawnFrom : DrawnFrom circleGraph circleDefinitions.toList where
  symbols := by
    intro d hd
    simp only [circleDefinitions, List.mem_cons, List.not_mem_nil, or_false] at hd
    change d.symbol ∈ circleNodes ∧ _
    rcases hd with rfl | rfl | rfl <;> simp [circleNodes, Expr.isSymbol]
  values := by
    intro d hd
    simp only [circleDefinitions, List.mem_cons, List.not_mem_nil, or_false] at hd
    change d.value ∈ circleNodes
    rcases hd with rfl | rfl | rfl <;> simp [circleNodes]
  distinct := by decide

/-- The search begins at `a`, which is on no circle, and reports the circle of `b` and `c`. -/
theorem definitionOrder_decides_circle :
    DrawnFrom circleGraph circleDefinitions.toList ∧
    definitionOrder circleDefinitions = .error (.cyclicDependency ["b", "c", "b"]) ∧
    (∃ i, Relation.TransGen (RefersTo circleDefinitions) i i) ∧
    ∃ first inner, (first :: inner).Nodup ∧
      (first :: inner ++ [first]).IsChain (RefersTo circleDefinitions) ∧
      List.Forall₂ (fun i name => ∃ d, circleDefinitions[i]? = some d ∧ d.name = name)
        (first :: inner ++ [first]) ["b", "c", "b"] := by
  have hfound : definitionOrder circleDefinitions = .error (.cyclicDependency ["b", "c", "b"]) := by
    cbv
  rcases definitionOrder_decides circleDefinitions_drawnFrom with ⟨hiff, -, herror⟩
  rcases herror _ hfound with ⟨first, inner, names, hnames, hplaces, hnodup, hchain⟩
  cases hnames
  refine ⟨circleDefinitions_drawnFrom, hfound, ?_, first, inner, hnodup, hchain, hplaces⟩
  by_contra hnone
  rcases hiff.2 (not_exists.1 hnone) with ⟨order, horder⟩
  rw [hfound] at horder
  cases horder

end Model

end FlatDae
