/-
Module: FlatDae.Proofs.GraphGrowth
Purpose: Making nodes only ever adds to a graph. A computation that takes identities from a supply leads
  from a graph below the supply to a larger graph below the supply that is left, whatever else it does;
  what it makes is a node of the larger graph, and new if it is a node that was not there. Computations
  in sequence let the graph grow further, so what was a node once stays one.
Main exports: Graph.shared, Supplied, Grows, Makes, Makes.node, Assembles, Assembles.elaborating_bind,
  Grows.forM
-/
import FlatDae.Proofs.ExpressionGraph
import FlatDae.Proofs.FaultChecks
import Mathlib.Order.Defs.PartialOrder

namespace FlatDae

/-! ### Larger graphs -/

namespace Expr.Graph

/-- A graph is at most another one if its nodes are nodes of that one. -/
instance : Preorder Graph where
  le g h := ∀ n ∈ g, n ∈ h
  le_refl _ _ hn := hn
  le_trans _ _ _ hgh hhk n hn := hhk n (hgh n hn)

/-- The graph of the shared constants. -/
def shared : Graph where
  nodes := { n | n = .zero ∨ n = .one ∨ n = .infinity ∨ n = .negInfinity }
  closed := by
    rintro n (rfl | rfl | rfl | rfl) c hc <;> cases hc
  unique := by
    rintro a (rfl | rfl | rfl | rfl) b (rfl | rfl | rfl | rfl) hid <;> first | rfl | cases hid

/-- No supply hands out the identities of the shared constants. -/
theorem shared_below : shared.Below {} := by
  rintro n (rfl | rfl | rfl | rfl) <;> decide

/-- A node whose identity is the next one can be added. -/
theorem exists_insert {g : Graph} {supply : Supply} (hbelow : g.Below supply) {n : Expr}
    (hid : n.id = supply.next) (hchildren : ∀ c ∈ n.children, c ∈ g) :
    ∃ g' : Graph, g ≤ g' ∧ g'.Below { next := supply.next + 1 } ∧ n ∈ g' ∧ n ∉ g := by
  have hnew : ∀ m ∈ g, m.id ≠ n.id := fun m hm => hid ▸ Nat.ne_of_lt (hbelow m hm)
  refine ⟨g.insert n hchildren hnew, fun m hm => Or.inr hm, ?_, Or.inl rfl, fun hn => hnew n hn rfl⟩
  rintro m (rfl | hm)
  · rw [hid]
    exact Nat.lt_succ_self _
  · exact Nat.lt_succ_of_lt (hbelow m hm)

end Expr.Graph

open FlatDae.Expr (Graph)

namespace Elaboration

/-- States that have a supply of identities. -/
class Supplied (σ : Type) where
  supply : σ → Supply

export Supplied (supply)

instance : Supplied Supply := ⟨id⟩

instance : Supplied Progress := ⟨Progress.supply⟩

instance : Supplied Draft := ⟨fun draft => draft.model.supply⟩

/-- From a state where `pre` holds the computation comes to a larger graph, and there `post` holds of
    the graph, the result and the state. -/
def Grows {σ α : Type} [Supplied σ] (g : Graph) (pre : σ → Prop) (x : StateM σ α)
    (post : Graph → α → σ → Prop) : Prop :=
  ∀ s, g.Below (supply s) → pre s →
    ∃ g', g ≤ g' ∧ g'.Below (supply (x.run s).2) ∧ post g' (x.run s).1 (x.run s).2

/-- What is made stands in the relation to the larger graph, wherever the computation starts. -/
abbrev Makes {σ α : Type} [Supplied σ] (g : Graph) (x : StateM σ α) (made : Graph → α → Prop) : Prop :=
  Grows g (fun _ => True) x fun g' a _ => made g' a

/-! ### Rules -/

namespace Grows

variable {σ α β : Type} [Supplied σ] {g : Graph} {pre pre' : σ → Prop} {x : StateM σ α}
  {f : α → StateM σ β} {post post' : Graph → α → σ → Prop} {post'' : Graph → β → σ → Prop}

/-- One computation after the other. -/
theorem bind (h : Grows g pre x post)
    (hf : ∀ g' a, g ≤ g' → Grows g' (post g' a) (f a) post'') : Grows g pre (x >>= f) post'' := by
  intro s hbelow hs
  obtain ⟨g₁, hle₁, hbelow₁, ha⟩ := h s hbelow hs
  obtain ⟨g₂, hle₂, hbelow₂, hb⟩ := hf g₁ _ hle₁ _ hbelow₁ ha
  exact ⟨g₂, le_trans hle₁ hle₂, hbelow₂, hb⟩

theorem pure {a : α} (hpost : ∀ s, pre s → post g a s) : Grows g pre (Pure.pure a : StateM σ α) post :=
  fun s hbelow hs => ⟨g, le_refl g, hbelow, hpost s hs⟩

/-- What starts in fewer states is known to do at least as much. -/
theorem weaken (h : Grows g pre x post) (hpre : ∀ s, pre' s → pre s)
    (hpost : ∀ g' a s, g ≤ g' → post g' a s → post' g' a s) : Grows g pre' x post' := by
  intro s hbelow hs
  obtain ⟨g', hle, hbelow', ha⟩ := h s hbelow (hpre s hs)
  exact ⟨g', hle, hbelow', hpost g' _ _ hle ha⟩

/-- What is done from some states is done from fewer. -/
theorem restrict (hpre : ∀ s, pre' s → pre s) (h : Grows g pre x post) : Grows g pre' x post :=
  h.weaken hpre fun _ _ _ _ hpost => hpost

/-- What is known of the states at the start may be used. -/
theorem assume {P : Prop} (hpre : ∀ s, pre s → P) (h : P → Grows g pre x post) : Grows g pre x post :=
  fun s hbelow hs => h (hpre s hs) s hbelow hs

/-- What exists at the start may be named. -/
theorem choose {β : Type} {start : β → σ → Prop} (h : ∀ b, Grows g (start b) x post) :
    Grows g (fun s => ∃ b, start b s) x post :=
  fun s hbelow ⟨b, hs⟩ => h b s hbelow hs

/-- The result need not be looked at. -/
theorem discard (h : Grows g pre x post) :
    Grows g pre (Functor.discard x) fun g' _ s => ∃ a, post g' a s := by
  intro s hbelow hs
  obtain ⟨g', hle, hbelow', ha⟩ := h s hbelow hs
  exact ⟨g', hle, hbelow', _, ha⟩

/-- A list is gone through with an invariant of the part that is done. -/
theorem forM {body : β → StateM σ Unit} {I : List β → Graph → σ → Prop} {bs : List β}
    (h : ∀ g' (done rest : List β) (b : β), bs = done ++ b :: rest → g ≤ g' →
      Grows g' (I done g') (body b) fun g'' _ => I (done ++ [b]) g'') :
    Grows g (I [] g) (bs.forM body) fun g' _ => I bs g' := by
  have hfrom (rest : List β) : ∀ (done : List β) (g' : Graph), bs = done ++ rest → g ≤ g' →
      Grows g' (I done g') (rest.forM body) fun g'' _ => I bs g'' := by
    induction rest with
    | nil =>
        intro done g' hdone _
        rw [hdone, List.append_nil]
        exact Grows.pure fun _ hs => hs
    | cons b rest ih =>
        intro done g' hdone hle
        apply Grows.bind (h g' done rest b hdone hle)
        exact fun g'' _ hle' => ih (done ++ [b]) g'' (by rw [hdone, List.append_cons]) (le_trans hle hle')
  exact hfrom bs [] g rfl (le_refl g)

end Grows

namespace Makes

variable {σ α β : Type} [Supplied σ] {g : Graph} {x : StateM σ α} {f : α → StateM σ β}
  {made made' : Graph → α → Prop} {made'' : Graph → β → Prop}

/-- One computation after the other, the second over what the first made. -/
theorem bind (h : Makes g x made) (hf : ∀ g' a, g ≤ g' → made g' a → Makes g' (f a) made'') :
    Makes g (x >>= f) made'' :=
  Grows.bind h fun g' a hle =>
    .assume (fun _ ha => ha) fun ha => .restrict (fun _ _ => trivial) (hf g' a hle ha)

theorem pure {a : α} (ha : made g a) : Makes g (Pure.pure a : StateM σ α) made := Grows.pure fun _ _ => ha

/-- Nodes of the model come from its supply. -/
theorem make {new : Fresh α} (h : Makes g new made) : Makes g (Elaboration.make new) made :=
  fun progress hbelow hs => h progress.supply hbelow hs

/-- A node with a new identity over nodes that there are. -/
theorem node {build : NodeId → Expr} (hid : ∀ id, (build id).id = id)
    (hchildren : ∀ id, ∀ c ∈ (build id).children, c ∈ g) :
    Makes g (do return build (← Fresh.nodeId) : Fresh Expr) fun g' n =>
      (∃ id, n = build id) ∧ n ∈ g' ∧ n ∉ g := by
  intro supply hbelow _
  obtain ⟨g', hle, hbelow', hmem, hnew⟩ := Graph.exists_insert hbelow (hid supply.next)
    (hchildren supply.next)
  exact ⟨g', hle, hbelow', ⟨supply.next, rfl⟩, hmem, hnew⟩

/-- A new symbol, different from all nodes whatever their names. -/
theorem symbol (name : String) :
    Makes g (Fresh.symbol name) fun g' n => (∃ id, n = .symbol id name) ∧ n ∈ g' ∧ n ∉ g :=
  node (fun _ => rfl) fun _ _ hc => absurd hc List.not_mem_nil

end Makes

/-! ### Drafts -/

/-- A computation on the model under construction, of which `I` holds before and `J` afterwards. -/
abbrev Assembles {α : Type} (g : Graph) (I : Model → Prop) (x : Building α)
    (J : Graph → α → Model → Prop) : Prop :=
  Grows g (fun draft : Draft => I draft.model) x fun g' a draft => J g' a draft.model

namespace Assembles

variable {α β : Type} {g : Graph} {I : Model → Prop} {J : Graph → α → Model → Prop}
  {K : Graph → β → Model → Prop}

/-- Building expressions changes nothing of the model but its supply. -/
theorem elaborating_bind {x : Elaborating α} {made : Graph → α → Prop} {f : α → Building β}
    (hI : ∀ (m : Model) (supply : Supply), I m → I { m with supply }) (h : Makes g x made)
    (hf : ∀ g' a, g ≤ g' → made g' a → Assembles g' I (f a) K) :
    Assembles g I (elaborating x >>= f) K := by
  have hx : Assembles g I (elaborating x) fun g' a m => made g' a ∧ I m := by
    intro draft hbelow hdraft
    obtain ⟨g', hle, hbelow', ha⟩ :=
      h { supply := draft.model.supply, problems := draft.problems } hbelow trivial
    exact ⟨g', hle, hbelow', ha, hI _ _ hdraft⟩
  apply Grows.bind hx
  intro g' a hle
  exact .assume (fun _ ha => ha.1) fun ha => .restrict (fun _ hs => hs.2) (hf g' a hle ha)

/-- What is done depends on the model as it is. -/
theorem get_bind {f : Draft → Building β}
    (hf : ∀ start : Draft, Assembles g (fun m => start.model = m ∧ I m) (f start) K) :
    Assembles g I (MonadState.get >>= f) K :=
  fun draft hbelow hdraft => hf draft draft hbelow ⟨rfl, hdraft⟩

theorem modifyModel {f : Model → α × Model} (hsupply : ∀ m, I m → (f m).2.supply = m.supply)
    (hJ : ∀ m, I m → J g (f m).1 (f m).2) : Assembles g I (Elaboration.modifyModel f) J := by
  intro draft hbelow hdraft
  refine ⟨g, le_refl g, ?_, hJ draft.model hdraft⟩
  change g.Below (f draft.model).2.supply
  rw [hsupply draft.model hdraft]
  exact hbelow

/-- An action that succeeds. -/
theorem attempt {start : Nat} {action : ModelAction Unit} {I' : Graph → Model → Prop}
    (h : ∀ m, I m → ∃ m', action.run m = .ok () m' ∧ m'.supply = m.supply ∧ I' g m') :
    Assembles g I (Elaboration.attempt start action) fun g' succeeded m =>
      succeeded = true ∧ I' g' m := by
  intro draft hbelow hdraft
  obtain ⟨m', hrun, hsupply, hm'⟩ := h draft.model hdraft
  rw [Builds.attempt_run, hrun]
  refine ⟨g, le_refl g, ?_, rfl, hm'⟩
  change g.Below m'.supply
  rw [hsupply]
  exact hbelow

end Assembles

end Elaboration

end FlatDae
