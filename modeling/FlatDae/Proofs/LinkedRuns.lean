/-
Module: FlatDae.Proofs.LinkedRuns
Purpose: The links that a run ends with. If all symbols are shared nodes of one graph, what can be joined
  is what the equations say of registered continuous variables. Where no symbol is the derivative of two
  or has two derivatives, the links after the last pass say just that, on both sides and whatever the
  order in which variables and equations were added.
Main exports: Model.StatedIn, Model.Differentiates, Model.DerivativesOnce,
  Model.Reachable.resolveLinks_links
-/
import FlatDae.Proofs.ExpressionGraph
import FlatDae.Proofs.LinkedModels
import Mathlib.Data.List.Nodup

namespace FlatDae

open FlatDae.Expr (Graph)

namespace Model

/-! ### What equations say of variables -/

/-- The symbols of the registered variables and the sides of the equations are nodes of one graph. -/
structure StatedIn (g : Graph) (m : Model) : Prop where
  symbol_mem : ∀ v ∈ m.registered, (m.store.get v).symbol ∈ g
  lhs_mem : ∀ eq ∈ m.equations, eq.lhs ∈ g
  rhs_mem : ∀ eq ∈ m.equations, eq.rhs ∈ g

/-- An equation says that `d` is the derivative of `x`, and both are registered and continuous. -/
structure Differentiates (m : Model) (d x : VarId) : Prop where
  derivative_mem : d ∈ m.registered
  differentiated_mem : x ∈ m.registered
  derivative_continuous : (m.store.get d).IsContinuous
  differentiated_continuous : (m.store.get x).IsContinuous
  equation : ∃ eq ∈ m.equations, eq.SaysDerivative (m.store.get d).symbol (m.store.get x).symbol

/-- Over all equations each symbol is the derivative of at most one symbol and has at most one
    derivative. -/
def DerivativesOnce (m : Model) : Prop :=
  ∀ eq ∈ m.equations, ∀ eq' ∈ m.equations, ∀ d x d' x' : Expr,
    eq.SaysDerivative d x → eq'.SaysDerivative d' x' → (d = d' ↔ x = x')

section Stated

variable {m : Model} {d x : VarId}

/-- A registered variable is found by its symbol. -/
theorem RegisteredApart.findBySymbol? (h : m.RegisteredApart) {v : VarId} (hv : v ∈ m.registered)
    (hsymbol : (m.store.get v).symbol.isSymbol = true) :
    m.findBySymbol? (m.store.get v).symbol = some v := by
  have hname : (m.store.get v).symbol.name? = some (m.store.get v).name := by
    rw [(m.store.get v).name_eq]
    cases hcase : (m.store.get v).symbol with
    | symbol id name => rw [Expr.print_symbol, Expr.name?]
    | _ => rw [hcase] at hsymbol; cases hsymbol
  have hfind : m.findVariable? (m.store.get v).name = some v := h.findVariable?_eq_some_iff.2 ⟨hv, rfl⟩
  unfold Model.findBySymbol? guard
  simp [hname, hfind, Expr.same]

/-- The variables that can be linked are the continuous ones. -/
theorem Linked.isLinkable_iff (h : m.Linked) {v : VarId} (hv : v ∈ m.registered) :
    m.isLinkable v = true ↔ (m.store.get v).IsContinuous := by
  obtain ⟨kind, hkind, hfits⟩ := h.kinds v hv
  rw [isLinkable, hkind]
  exact hfits.isLinkable_iff

/-- What is related is said by an equation, since in a graph a symbol is known by its identity. -/
theorem Related.differentiates {g : Graph} (h : m.Related d x) (hlinked : m.Linked)
    (hstated : m.StatedIn g) : m.Differentiates d x := by
  obtain ⟨r, hr, hdsame, hxsame⟩ := h.relation
  obtain ⟨eq, heq, hrelation⟩ := (hlinked.relations r).1 hr
  have hsays := DerivativeRelation.ofEquation?_eq_some_iff.1 hrelation
  have hsides : r.derivative ∈ g ∧ r.differentiated ∈ g := by
    have hlhs := hstated.lhs_mem eq heq
    have hrhs := hstated.rhs_mem eq heq
    obtain ⟨id, rfl | rfl⟩ := hsays.sides
    · exact ⟨hlhs, Graph.mem_children hrhs (List.mem_singleton_self _)⟩
    · exact ⟨hrhs, Graph.mem_children hlhs (List.mem_singleton_self _)⟩
  have hd : r.derivative = (m.store.get d).symbol :=
    Graph.eq_of_id_eq hsides.1 (hstated.symbol_mem d h.derivative_mem) (beq_iff_eq.1 hdsame)
  have hx : r.differentiated = (m.store.get x).symbol :=
    Graph.eq_of_id_eq hsides.2 (hstated.symbol_mem x h.differentiated_mem) (beq_iff_eq.1 hxsame)
  rw [hd, hx] at hsays
  exact ⟨h.derivative_mem, h.differentiated_mem, (hlinked.isLinkable_iff h.derivative_mem).1
    h.derivative_linkable, (hlinked.isLinkable_iff h.differentiated_mem).1 h.differentiated_linkable,
    eq, heq, hsays⟩

/-- What an equation says of registered continuous variables is joined by its relation. -/
theorem Differentiates.joins (h : m.Differentiates d x) (hlinked : m.Linked)
    (happart : m.RegisteredApart) : m.Joins d x := by
  obtain ⟨eq, heq, hsays⟩ := h.equation
  let r : DerivativeRelation := ⟨(m.store.get d).symbol, (m.store.get x).symbol⟩
  refine ⟨r, (hlinked.relations r).2 ⟨eq, heq, DerivativeRelation.ofEquation?_eq_some_iff.2 hsays⟩, ?_⟩
  exact ends?_eq_some_iff.2 ⟨happart.findBySymbol? h.derivative_mem hsays.derivative,
    happart.findBySymbol? h.differentiated_mem hsays.differentiated,
    (hlinked.isLinkable_iff h.derivative_mem).2 h.derivative_continuous,
    (hlinked.isLinkable_iff h.differentiated_mem).2 h.differentiated_continuous⟩

/-- Registered variables with one symbol are one variable, since their names are different. -/
theorem RegisteredApart.eq_of_symbol (h : m.RegisteredApart) {v w : VarId} (hv : v ∈ m.registered)
    (hw : w ∈ m.registered) (hsymbol : (m.store.get v).symbol = (m.store.get w).symbol) : v = w := by
  apply List.inj_on_of_nodup_map h.names (Array.mem_toList_iff.2 hv) (Array.mem_toList_iff.2 hw)
  rw [(m.store.get v).name_eq, (m.store.get w).name_eq, hsymbol]

theorem Differentiates.derivative_unique {d' : VarId} (h : m.Differentiates d x)
    (h' : m.Differentiates d' x) (honce : m.DerivativesOnce) (happart : m.RegisteredApart) :
    d' = d := by
  obtain ⟨eq, heq, hsays⟩ := h.equation
  obtain ⟨eq', heq', hsays'⟩ := h'.equation
  exact happart.eq_of_symbol h'.derivative_mem h.derivative_mem
    ((honce eq' heq' eq heq _ _ _ _ hsays' hsays).2 rfl)

theorem Differentiates.differentiated_unique {x' : VarId} (h : m.Differentiates d x)
    (h' : m.Differentiates d x') (honce : m.DerivativesOnce) (happart : m.RegisteredApart) :
    x' = x := by
  obtain ⟨eq, heq, hsays⟩ := h.equation
  obtain ⟨eq', heq', hsays'⟩ := h'.equation
  exact happart.eq_of_symbol h'.differentiated_mem h.differentiated_mem
    ((honce eq' heq' eq heq _ _ _ _ hsays' hsays).1 rfl)

/-- The equations say the same of variables that were made alike. -/
theorem Differentiates.mono {m' : Model} (h : m.Differentiates d x)
    (hregistered : ∀ v ∈ m.registered, v ∈ m'.registered)
    (hmade : ∀ v ∈ m.registered, (m.store.get v).SameMake (m'.store.get v))
    (hequations : ∀ eq ∈ m.equations, eq ∈ m'.equations) : m'.Differentiates d x := by
  have hd := hmade d h.derivative_mem
  have hx := hmade x h.differentiated_mem
  obtain ⟨eq, heq, hsays⟩ := h.equation
  refine ⟨hregistered d h.derivative_mem, hregistered x h.differentiated_mem,
    hd.isContinuous_iff.2 h.derivative_continuous, hx.isContinuous_iff.2 h.differentiated_continuous,
    eq, hequations eq heq, ?_⟩
  rw [hd.symbol, hx.symbol]
  exact hsays

end Stated

/-! ### The links after the last pass -/

/-- The last pass changes neither the registered variables nor the equations. -/
theorem resolveLinks_rest (m : Model) :
    m.resolveLinks.2.registered = m.registered ∧ m.resolveLinks.2.equations = m.equations := by
  have hrest := (Updates.resolveLinks m).rest
  generalize m.resolveLinks.2 = final at hrest ⊢
  rw [hrest]
  exact ⟨rfl, rfl⟩

/-- Nor does it change what equations say of variables. -/
theorem differentiates_resolveLinks_iff {m : Model} {d x : VarId} :
    m.resolveLinks.2.Differentiates d x ↔ m.Differentiates d x := by
  obtain ⟨hregistered, hequations⟩ := m.resolveLinks_rest
  have hmade (v : VarId) : (m.store.get v).SameMake (m.resolveLinks.2.store.get v) :=
    ((Updates.resolveLinks m).cells v).toSameMake
  constructor
  · intro h
    refine h.mono (fun v hv => ?_) (fun v _ => (hmade v).symm) fun eq heq => ?_
    · rwa [hregistered] at hv
    · rwa [hequations] at heq
  · intro h
    refine h.mono (fun v hv => ?_) (fun v _ => hmade v) fun eq heq => ?_
    · rwa [hregistered]
    · rwa [hequations]

theorem StatedIn.resolveLinks {g : Graph} {m : Model} (h : m.StatedIn g) :
    m.resolveLinks.2.StatedIn g := by
  obtain ⟨hregistered, hequations⟩ := m.resolveLinks_rest
  constructor
  · intro v hv
    rw [((Updates.resolveLinks m).cells v).toSameMake.symbol]
    exact h.symbol_mem v (hregistered ▸ hv)
  · exact fun eq heq => h.lhs_mem eq (hequations ▸ heq)
  · exact fun eq heq => h.rhs_mem eq (hequations ▸ heq)

section LastPass

variable {g : Graph} {m : Model} (hlinked : m.Linked) (happart : m.RegisteredApart)
include hlinked happart

/-- After the last pass what equations say of continuous variables is joined. -/
theorem Differentiates.joined_resolveLinks {d x : VarId} (h : m.Differentiates d x) :
    m.resolveLinks.2.Joined d x :=
  hlinked.joined_resolveLinks happart.exist (h.joins hlinked happart)

variable (hstated : m.StatedIn g)
include hstated

/-- A link after the last pass is along an equation. -/
theorem Joined.differentiates_of_resolveLinks {d x : VarId} (h : m.resolveLinks.2.Joined d x) :
    m.Differentiates d x :=
  differentiates_resolveLinks_iff.1
    (h.toRelated.differentiates (hlinked.resolveLinks happart.exist) hstated.resolveLinks)

variable (honce : m.DerivativesOnce)
include honce

/-- The derivative of a variable after the last pass is the one that the equations give it. -/
theorem resolveLinks_derivative_iff (d x : VarId) :
    (m.resolveLinks.2.store.get x).derivative = some d ↔ m.Differentiates d x := by
  have hfinal := hlinked.resolveLinks happart.exist
  constructor
  · exact fun hlink =>
      (hfinal.derivative hlink).differentiates_of_resolveLinks hlinked happart hstated
  · intro h
    have hjoined := h.joined_resolveLinks hlinked happart
    obtain ⟨d', hlink⟩ := Option.isSome_iff_exists.1 hjoined.derivative_isSome
    have h' := (hfinal.derivative hlink).differentiates_of_resolveLinks hlinked happart hstated
    rw [hlink, h.derivative_unique h' honce happart]

/-- What a variable is the derivative of after the last pass is what the equations say. -/
theorem resolveLinks_differentiated_iff (d x : VarId) :
    (m.resolveLinks.2.store.get d).differentiated = some x ↔ m.Differentiates d x := by
  have hfinal := hlinked.resolveLinks happart.exist
  constructor
  · exact fun hlink =>
      (hfinal.differentiated hlink).differentiates_of_resolveLinks hlinked happart hstated
  · intro h
    have hjoined := h.joined_resolveLinks hlinked happart
    obtain ⟨x', hlink⟩ := Option.isSome_iff_exists.1 hjoined.differentiated_isSome
    have h' := (hfinal.differentiated hlink).differentiates_of_resolveLinks hlinked happart hstated
    rw [hlink, h.differentiated_unique h' honce happart]

end LastPass

/-- In every run that sets no link by hand and in which all symbols are nodes of one graph, where no
    symbol is the derivative of two symbols or has two derivatives, the links after the last pass are
    mutual and are just those that equations state between registered continuous variables. Runs that
    register the same variables and add the same equations in another order end with the same links. -/
theorem Reachable.resolveLinks_links {g : Graph} {m : Model}
    (h : m.Reachable fun _ op => ¬ op.LinksByHand) (hstated : m.StatedIn g)
    (honce : m.DerivativesOnce) :
    (∀ d x : VarId,
      ((m.resolveLinks.2.store.get d).differentiated = some x ↔
        (m.resolveLinks.2.store.get x).derivative = some d) ∧
      ((m.resolveLinks.2.store.get x).derivative = some d ↔ m.Differentiates d x)) ∧
    ∀ other : Model, other.Reachable (fun _ op => ¬ op.LinksByHand) →
      other.registered.toList.Perm m.registered.toList → other.equations.Perm m.equations →
      (∀ v ∈ m.registered, (m.store.get v).SameMake (other.store.get v)) →
      ∀ v : VarId,
        (other.resolveLinks.2.store.get v).derivative = (m.resolveLinks.2.store.get v).derivative ∧
        (other.resolveLinks.2.store.get v).differentiated =
          (m.resolveLinks.2.store.get v).differentiated := by
  have hderivative := resolveLinks_derivative_iff h.linked h.registeredApart hstated honce
  have hdifferentiated := resolveLinks_differentiated_iff h.linked h.registeredApart hstated honce
  refine ⟨fun d x => ⟨(hdifferentiated d x).trans (hderivative d x).symm, hderivative d x⟩, ?_⟩
  intro other hother hregistered hequations hmade
  have hmem {v : VarId} : v ∈ other.registered ↔ v ∈ m.registered := by
    rw [← Array.mem_toList_iff, ← Array.mem_toList_iff]
    exact hregistered.mem_iff
  have hstated' : other.StatedIn g := by
    constructor
    · intro v hv
      rw [(hmade v (hmem.1 hv)).symbol]
      exact hstated.symbol_mem v (hmem.1 hv)
    · exact fun eq heq => hstated.lhs_mem eq (hequations.mem_iff.1 heq)
    · exact fun eq heq => hstated.rhs_mem eq (hequations.mem_iff.1 heq)
  have honce' : other.DerivativesOnce := fun eq heq eq' heq' =>
    honce eq (hequations.mem_iff.1 heq) eq' (hequations.mem_iff.1 heq')
  have hiff (d x : VarId) : other.Differentiates d x ↔ m.Differentiates d x := by
    constructor
    · exact fun hd => hd.mono (fun _ hv => hmem.1 hv) (fun v hv => (hmade v (hmem.1 hv)).symm)
        fun _ heq => hequations.mem_iff.1 heq
    · exact fun hd => hd.mono (fun _ hv => hmem.2 hv) hmade fun _ heq => hequations.mem_iff.2 heq
  have hderivative' :=
    resolveLinks_derivative_iff hother.linked hother.registeredApart hstated' honce'
  have hdifferentiated' :=
    resolveLinks_differentiated_iff hother.linked hother.registeredApart hstated' honce'
  refine fun v => ⟨Option.ext fun d => ?_, Option.ext fun x => ?_⟩
  · rw [hderivative', hderivative, hiff]
  · rw [hdifferentiated', hdifferentiated, hiff]

/-! ### Runs along a list of operations -/

/-- No operation loses a variable or changes what it was made as. -/
theorem run_made (m : Model) (op : Operation) :
    m.store.cells.size ≤ (op.run m).store.cells.size ∧
      ∀ v : VarId, v.index < m.store.cells.size →
        (m.store.get v).SameMake ((op.run m).store.get v) := by
  rcases op.run_keeps_or m with hkeeps | ⟨v, classification, type, types, -, -, -, -, heq⟩
  · exact ⟨hkeeps.size_le, hkeeps.made⟩
  · have hkeeps := Keeps.linkPrepared m v classification type types
    rw [heq]
    exact ⟨hkeeps.size_le, hkeeps.made⟩

theorem foldl_run_made (ops : List Operation) (m : Model) {v : VarId}
    (hv : v.index < m.store.cells.size) :
    (m.store.get v).SameMake ((ops.foldl Operation.run m).store.get v) := by
  induction ops generalizing m with
  | nil => exact .refl _
  | cons op ops ih =>
      obtain ⟨hsize, hmade⟩ := run_made m op
      exact (hmade v hv).trans (ih (op.run m) (Nat.lt_of_lt_of_le hv hsize))

/-- What some operations reach, more operations reach. -/
theorem Runs.mono {allowed allowed' : Model → Operation → Prop} {m₀ m : Model}
    (h : Runs allowed m₀ m) (hallowed : ∀ m op, allowed m op → allowed' m op) :
    Runs allowed' m₀ m := by
  induction h with
  | start => exact .start
  | step op _ hvalid hop ih => exact .step op ih hvalid (hallowed _ op hop)

/-- Operations that are valid at the start stay so, as no variable is lost. -/
theorem Runs.foldl {allowed : Model → Operation → Prop} {m₀ m : Model} (h : Runs allowed m₀ m)
    (ops : List Operation) (hvalid : ∀ op ∈ ops, op.Valid m) (hallowed : ∀ op ∈ ops, ∀ m, allowed m op) :
    Runs allowed m₀ (ops.foldl Operation.run m) := by
  induction ops generalizing m with
  | nil => exact h
  | cons op ops ih =>
      obtain ⟨hfirst, hrest⟩ := List.forall_mem_cons.1 hvalid
      obtain ⟨hallowedFirst, hallowedRest⟩ := List.forall_mem_cons.1 hallowed
      refine ih (.step op h hfirst (hallowedFirst m)) (fun op' hop' => ?_) hallowedRest
      have hop := hrest op' hop'
      cases op' with
      | addVariable v => exact Nat.lt_of_lt_of_le hop (run_made m op).1
      | _ => exact hop

/-- An internal continuous variable. -/
def continuousVariable (id : NodeId) (name : String) : Variable :=
  { symbol := .symbol id name
    name
    name_eq := (Expr.print_symbol id name).symm
    domain := .real
    causality := .internal
    variability := .continuous }

/-- Internal continuous variables are made, and nothing is registered. -/
def made (symbols : List (NodeId × String)) : Model :=
  (symbols.map fun (id, name) => .create (continuousVariable id name)).foldl Operation.run {}

theorem size_made (symbols : List (NodeId × String)) :
    (made symbols).store.cells.size = symbols.length := by
  suffices h : ∀ m : Model,
      ((symbols.map fun (id, name) => Operation.create (continuousVariable id name)).foldl
        Operation.run m).store.cells.size = m.store.cells.size + symbols.length by
    rw [made, h]
    exact Nat.zero_add _
  induction symbols with
  | nil => exact fun _ => rfl
  | cons symbol symbols ih =>
      intro m
      rw [List.map_cons, List.foldl_cons, ih, List.length_cons]
      change (m.store.cells.push _).size + _ = _
      rw [Array.size_push]
      omega

theorem made_reachable {allowed : Model → Operation → Prop} (symbols : List (NodeId × String))
    (hallowed : ∀ m id name, allowed m (.create (continuousVariable id name))) :
    (made symbols).Reachable allowed := by
  refine Runs.foldl .start _ (fun op hop => ?_) fun op hop m => ?_ <;>
    obtain ⟨symbol, -, rfl⟩ := List.mem_map.1 hop
  · rfl
  · exact hallowed m _ _

/-- Internal continuous variables are made without links. -/
theorem not_linksByHand_continuousVariable (id : NodeId) (name : String) :
    ¬ (Operation.create (continuousVariable id name)).LinksByHand :=
  fun hlinked => hlinked.elim (· rfl) (· rfl)

/-! ### A chain of derivatives -/

/-- The equation `v = der(x)`. -/
def velocityEquation : Equation := ⟨.symbol 2 "v", .der 4 (.symbol 1 "x")⟩

/-- The equation `a = der(v)`. -/
def accelerationEquation : Equation := ⟨.symbol 3 "a", .der 5 (.symbol 2 "v")⟩

/-- The variables are registered before the equations, and `a = der(v)` comes first. -/
def lateChain : Model :=
  [.addVariable ⟨0⟩, .addVariable ⟨1⟩, .addVariable ⟨2⟩, .addDaeEquation accelerationEquation,
    .addDaeEquation velocityEquation].foldl Operation.run (made [(1, "x"), (2, "v"), (3, "a")])

/-- The equations are added before the variables are registered. -/
def earlyChain : Model :=
  [.addDaeEquation velocityEquation, .addDaeEquation accelerationEquation, .addVariable ⟨0⟩,
    .addVariable ⟨1⟩, .addVariable ⟨2⟩].foldl Operation.run (made [(1, "x"), (2, "v"), (3, "a")])

theorem lateChain_reachable : lateChain.Reachable fun _ op => ¬ op.LinksByHand := by
  refine Runs.foldl (made_reachable _ fun _ => not_linksByHand_continuousVariable) _ ?_ ?_ <;>
    simp [Operation.Valid, Operation.LinksByHand, size_made]

theorem earlyChain_reachable : earlyChain.Reachable fun _ op => ¬ op.LinksByHand := by
  refine Runs.foldl (made_reachable _ fun _ => not_linksByHand_continuousVariable) _ ?_ ?_ <;>
    simp [Operation.Valid, Operation.LinksByHand, size_made]

/-- The nodes of both equations. -/
def chainGraph : Graph where
  nodes := { n | n = .symbol 1 "x" ∨ n = .symbol 2 "v" ∨ n = .symbol 3 "a" ∨
    n = .der 4 (.symbol 1 "x") ∨ n = .der 5 (.symbol 2 "v") }
  closed := by
    rintro n (rfl | rfl | rfl | rfl | rfl) c hc <;> simp_all [Expr.children]
  unique := by
    rintro a (rfl | rfl | rfl | rfl | rfl) b (rfl | rfl | rfl | rfl | rfl) hid <;>
      simp_all [Expr.id]

theorem lateChain_equations : lateChain.equations = [accelerationEquation, velocityEquation] := rfl

theorem lateChain_registered : lateChain.registered.toList = [⟨0⟩, ⟨1⟩, ⟨2⟩] := rfl

theorem earlyChain_equations : earlyChain.equations = [velocityEquation, accelerationEquation] := rfl

theorem earlyChain_registered : earlyChain.registered.toList = [⟨0⟩, ⟨1⟩, ⟨2⟩] := rfl

/-- The three variables are there under their symbols and continuous. -/
theorem lateChain_variables : ∀ v ∈ lateChain.registered,
    (lateChain.store.get v).symbol ∈ chainGraph ∧ (lateChain.store.get v).IsContinuous := by
  intro v hv
  rw [← Array.mem_toList_iff, lateChain_registered] at hv
  have hmade {w : VarId} (hw : w.index < 3) :
      ((made [(1, "x"), (2, "v"), (3, "a")]).store.get w).SameMake (lateChain.store.get w) :=
    foldl_run_made _ _ (size_made _ ▸ hw)
  rcases (by simpa using hv : v = ⟨0⟩ ∨ v = ⟨1⟩ ∨ v = ⟨2⟩) with rfl | rfl | rfl
  · have hv := hmade (w := ⟨0⟩) (by decide)
    exact ⟨hv.symbol ▸ Or.inl rfl, hv.isContinuous_iff.2 ⟨rfl, rfl, by decide⟩⟩
  · have hv := hmade (w := ⟨1⟩) (by decide)
    exact ⟨hv.symbol ▸ Or.inr (Or.inl rfl), hv.isContinuous_iff.2 ⟨rfl, rfl, by decide⟩⟩
  · have hv := hmade (w := ⟨2⟩) (by decide)
    exact ⟨hv.symbol ▸ Or.inr (Or.inr (Or.inl rfl)), hv.isContinuous_iff.2 ⟨rfl, rfl, by decide⟩⟩

theorem lateChain_statedIn : lateChain.StatedIn chainGraph := by
  refine ⟨fun v hv => (lateChain_variables v hv).1, fun eq heq => ?_, fun eq heq => ?_⟩
  · rw [lateChain_equations] at heq
    rcases (by simpa using heq : eq = accelerationEquation ∨ eq = velocityEquation) with rfl | rfl
    · exact Or.inr (Or.inr (Or.inl rfl))
    · exact Or.inr (Or.inl rfl)
  · rw [lateChain_equations] at heq
    rcases (by simpa using heq : eq = accelerationEquation ∨ eq = velocityEquation) with rfl | rfl
    · exact Or.inr (Or.inr (Or.inr (Or.inr rfl)))
    · exact Or.inr (Or.inr (Or.inr (Or.inl rfl)))

/-- The equations say of `a` and `v`, and of `v` and `x`, that the former is the derivative. -/
theorem lateChain_saysDerivative {eq : Equation} (heq : eq ∈ lateChain.equations) {d x : Expr}
    (h : eq.SaysDerivative d x) :
    d = .symbol 3 "a" ∧ x = .symbol 2 "v" ∨ d = .symbol 2 "v" ∧ x = .symbol 1 "x" := by
  have hrelation := (DerivativeRelation.ofEquation?_eq_some_iff (r := ⟨d, x⟩)).2 h
  rw [lateChain_equations] at heq
  rcases (by simpa using heq : eq = accelerationEquation ∨ eq = velocityEquation) with rfl | rfl
  · cases hrelation
    exact Or.inl ⟨rfl, rfl⟩
  · cases hrelation
    exact Or.inr ⟨rfl, rfl⟩

theorem lateChain_derivativesOnce : lateChain.DerivativesOnce := by
  intro eq heq eq' heq' d x d' x' h h'
  rcases lateChain_saysDerivative heq h with ⟨rfl, rfl⟩ | ⟨rfl, rfl⟩ <;>
    rcases lateChain_saysDerivative heq' h' with ⟨rfl, rfl⟩ | ⟨rfl, rfl⟩ <;> simp

theorem lateChain_differentiates :
    lateChain.Differentiates ⟨1⟩ ⟨0⟩ ∧ lateChain.Differentiates ⟨2⟩ ⟨1⟩ := by
  have hmem (v : VarId) (hv : v ∈ [⟨0⟩, ⟨1⟩, ⟨2⟩]) : v ∈ lateChain.registered :=
    Array.mem_toList_iff.1 (lateChain_registered ▸ hv)
  have hposition := hmem ⟨0⟩ (by decide)
  have hvelocity := hmem ⟨1⟩ (by decide)
  have hacceleration := hmem ⟨2⟩ (by decide)
  have hcontinuous {v : VarId} (hv : v ∈ lateChain.registered) := (lateChain_variables v hv).2
  constructor
  · refine ⟨hvelocity, hposition, hcontinuous hvelocity, hcontinuous hposition, velocityEquation,
      ?_, rfl, rfl, 4, Or.inl rfl⟩
    rw [lateChain_equations]
    exact List.mem_cons_of_mem _ List.mem_cons_self
  · refine ⟨hacceleration, hvelocity, hcontinuous hacceleration, hcontinuous hvelocity,
      accelerationEquation, ?_, rfl, rfl, 5, Or.inl rfl⟩
    rw [lateChain_equations]
    exact List.mem_cons_self

/-- Both chains have the variables that were made. -/
theorem chains_made (v : VarId) (hv : v ∈ lateChain.registered) :
    (lateChain.store.get v).SameMake (earlyChain.store.get v) := by
  have hexist := lateChain_reachable.registeredApart.exist v hv
  have hlate := foldl_run_made [.addVariable ⟨0⟩, .addVariable ⟨1⟩, .addVariable ⟨2⟩,
    .addDaeEquation accelerationEquation, .addDaeEquation velocityEquation]
    (made [(1, "x"), (2, "v"), (3, "a")]) hexist
  exact hlate.symm.trans (foldl_run_made _ _ hexist)

/-- `v` is the derivative of `x` and `a` that of `v`, in either order of additions. -/
theorem resolveLinks_links_chain :
    (lateChain.resolveLinks.2.store.get ⟨0⟩).derivative = some ⟨1⟩ ∧
    (lateChain.resolveLinks.2.store.get ⟨1⟩).differentiated = some ⟨0⟩ ∧
    (lateChain.resolveLinks.2.store.get ⟨1⟩).derivative = some ⟨2⟩ ∧
    (earlyChain.resolveLinks.2.store.get ⟨1⟩).differentiated =
      (lateChain.resolveLinks.2.store.get ⟨1⟩).differentiated := by
  obtain ⟨hlinks, horder⟩ :=
    lateChain_reachable.resolveLinks_links lateChain_statedIn lateChain_derivativesOnce
  obtain ⟨hvelocity, hacceleration⟩ := lateChain_differentiates
  have hderivative := (hlinks ⟨1⟩ ⟨0⟩).2.2 hvelocity
  refine ⟨hderivative, (hlinks ⟨1⟩ ⟨0⟩).1.2 hderivative, (hlinks ⟨2⟩ ⟨1⟩).2.2 hacceleration, ?_⟩
  refine (horder earlyChain earlyChain_reachable ?_ ?_ chains_made ⟨1⟩).2
  · rw [earlyChain_registered, lateChain_registered]
  · rw [earlyChain_equations, lateChain_equations]
    exact .swap _ _ []

end Model

end FlatDae
