/-
Module: FlatDae.Proofs.AliasChains
Purpose: What the chains of aliases in a text lead to. Each alias clause is checked on its own, so the
  clauses together may lead in a circle. Following as many links as there are variables ends at the one
  variable of the chain that is no alias, if the chain does not lead into a circle, and somewhere on the
  circle if it does.
Main exports: Variables.AliasChain, Variables.followAliases_spec, Source.Model.Aliases,
  Source.Model.LeadsInCircle, Model.ofText_representatives
-/
import FlatDae.Proofs.ModelFidelity
import Mathlib.Data.Finset.Card
import Mathlib.Dynamics.PeriodicPts.Defs

namespace FlatDae

open Function (IsFixedPt IsPeriodicPt)

/-! ### Links of a store -/

namespace Variables

/-- Following one or more alias links from the first variable leads to the second. The sign changes with
    every link that is negated. -/
inductive AliasChain (store : Variables) : VarId → VarId → Bool → Prop where
  | direct {v w : VarId} {negated : Bool}
      (hlink : (store.get v).aliasOf = some { target := w, negated }) : AliasChain store v w negated
  | through {v u w : VarId} {negated negated' : Bool}
      (hlink : (store.get v).aliasOf = some { target := u, negated })
      (hrest : AliasChain store u w negated') : AliasChain store v w (negated ^^ negated')

/-- Following alias links from the first variable, or none, leads to the second. -/
def LeadsTo (store : Variables) (v w : VarId) : Prop := w = v ∨ ∃ negated, store.AliasChain v w negated

/-- Following alias links from the variable leads to one that comes back to itself. -/
def LeadsInCircle (store : Variables) (v : VarId) : Prop :=
  ∃ w, store.LeadsTo v w ∧ ∃ negated, store.AliasChain w w negated

/-- The variable that stands directly for another one, which is itself if it is no alias. -/
def standIn (store : Variables) (v : VarId) : VarId := ((store.get v).aliasOf.map Alias.target).getD v

variable {store : Variables} {v w : VarId}

theorem standIn_of_link {link : Alias} (h : (store.get v).aliasOf = some link) :
    store.standIn v = link.target := by
  rw [standIn, h]
  rfl

theorem isFixedPt_standIn (h : (store.get v).aliasOf = none) : IsFixedPt store.standIn v := by
  rw [IsFixedPt, standIn, h]
  rfl

theorem AliasChain.link {negated : Bool} (h : store.AliasChain v w negated) :
    ∃ link, (store.get v).aliasOf = some link := by
  cases h with
  | direct hlink => exact ⟨_, hlink⟩
  | through hlink => exact ⟨_, hlink⟩

/-- A chain is a number of steps. -/
theorem AliasChain.iterate {negated : Bool} (h : store.AliasChain v w negated) :
    ∃ steps, 0 < steps ∧ store.standIn^[steps] v = w := by
  induction h with
  | direct hlink => exact ⟨1, Nat.one_pos, standIn_of_link hlink⟩
  | through hlink _ ih =>
      obtain ⟨steps, -, rfl⟩ := ih
      refine ⟨steps + 1, Nat.succ_pos steps, ?_⟩
      rw [Function.iterate_succ_apply, standIn_of_link hlink]

/-- A number of steps is a chain, unless it leads nowhere. -/
theorem leadsTo_of_iterate {steps : Nat} (h : store.standIn^[steps] v = w) : store.LeadsTo v w := by
  induction steps generalizing v with
  | zero => exact Or.inl h.symm
  | succ steps ih =>
      rw [Function.iterate_succ_apply] at h
      cases hlink : (store.get v).aliasOf with
      | none =>
          rw [isFixedPt_standIn hlink] at h
          exact ih h
      | some link =>
          rw [standIn_of_link hlink] at h
          rcases ih h with rfl | ⟨negated, hrest⟩
          · exact Or.inr ⟨_, .direct hlink⟩
          · exact Or.inr ⟨_, .through hlink hrest⟩

theorem LeadsTo.iterate (h : store.LeadsTo v w) : ∃ steps, store.standIn^[steps] v = w := by
  rcases h with rfl | ⟨negated, hchain⟩
  · exact ⟨0, rfl⟩
  · obtain ⟨steps, -, hsteps⟩ := hchain.iterate
    exact ⟨steps, hsteps⟩

/-- An alias that steps come back to is on a circle. -/
theorem circle_of_isPeriodicPt {steps : Nat} {link : Alias} (hlink : (store.get v).aliasOf = some link)
    (hpositive : 0 < steps) (h : IsPeriodicPt store.standIn steps v) :
    ∃ negated, store.AliasChain v v negated := by
  obtain ⟨steps, rfl⟩ := Nat.exists_eq_succ_of_ne_zero (Nat.ne_of_gt hpositive)
  rw [IsPeriodicPt, IsFixedPt, Function.iterate_succ_apply, standIn_of_link hlink] at h
  rcases leadsTo_of_iterate h with heq | ⟨negated, hrest⟩
  · exact ⟨link.negated, .direct (by rw [hlink, heq])⟩
  · exact ⟨_, .through hlink hrest⟩

/-- Following links for some steps takes that many steps, or stays where there is no link. -/
theorem followAliases_eq_iterate (steps : Nat) (v : VarId) :
    Model.followAliases store steps v = store.standIn^[steps] v := by
  induction steps generalizing v with
  | zero => rfl
  | succ steps ih =>
      rw [Model.followAliases, Function.iterate_succ_apply]
      cases hlink : (store.get v).aliasOf with
      | some link => rw [standIn_of_link hlink, ← ih]
      | none => rw [isFixedPt_standIn hlink, Function.iterate_fixed (isFixedPt_standIn hlink)]

/-- Where steps have led to a fixed point they lead to no other point that comes back to itself. -/
theorem eq_of_isPeriodicPt {α : Type} {f : α → α} {start x y : α} {i j period : Nat}
    (hx : f^[i] start = x) (hfixed : IsFixedPt f x) (hy : f^[j] start = y) (hpositive : 0 < period)
    (hperiodic : IsPeriodicPt f period y) : y = x := by
  have hreturn : f^[period * i] y = y := hperiodic.mul_const i
  have hle : i ≤ period * i + j :=
    Nat.le_add_right_of_le (Nat.le_mul_of_pos_left i hpositive)
  calc y = f^[period * i + j] start := by rw [Function.iterate_add_apply, hy, hreturn]
    _ = f^[period * i + j - i] x := by
        rw [← hx, ← Function.iterate_add_apply, Nat.sub_add_cancel hle]
    _ = x := Function.iterate_fixed hfixed _

/-- Among variables that link only to each other, as many steps as there are variables lead to one that
    further steps come back to. -/
theorem isPeriodicPt_iterate {vs : List VarId} (hclosed : ∀ v ∈ vs, store.standIn v ∈ vs)
    (hv : v ∈ vs) : ∃ period, 0 < period ∧
      IsPeriodicPt store.standIn period (store.standIn^[vs.length] v) := by
  have hmem (i : Nat) : store.standIn^[i] v ∈ vs :=
    Set.MapsTo.iterate (s := {v | v ∈ vs}) hclosed i hv
  -- there are more numbers of steps than variables
  have hcard : vs.toFinset.card < (Finset.range (vs.length + 1)).card := by
    rw [Finset.card_range]
    exact Nat.lt_succ_of_le (List.toFinset_card_le vs)
  obtain ⟨i, hi, j, hj, hne, heq⟩ := Finset.exists_ne_map_eq_of_card_lt_of_maps_to hcard
    (f := fun i => store.standIn^[i] v) fun i _ => List.mem_toFinset.2 (hmem i)
  rw [Finset.mem_range, Nat.lt_succ_iff] at hi hj
  wlog hlt : i < j generalizing i j
  · exact this j hj i hi hne.symm heq.symm (by omega)
  refine ⟨j - i, Nat.sub_pos_of_lt hlt, ?_⟩
  have hsum : j - i + vs.length = vs.length - i + j := by omega
  calc store.standIn^[j - i] (store.standIn^[vs.length] v)
      = store.standIn^[vs.length - i] (store.standIn^[j] v) := by
        rw [← Function.iterate_add_apply, hsum, Function.iterate_add_apply]
    _ = store.standIn^[vs.length] v := by
        rw [← heq, ← Function.iterate_add_apply, Nat.sub_add_cancel hi]

/-- The outcome of following as many links as there are variables that link only to each other: it is the
    one variable of the chain that is no alias, unless the chain leads in a circle. -/
theorem followAliases_spec {vs : List VarId}
    (hclosed : ∀ v ∈ vs, ∀ link, (store.get v).aliasOf = some link → link.target ∈ vs) (hv : v ∈ vs) :
    ∃ w ∈ vs, Model.followAliases store vs.length v = w ∧ store.LeadsTo v w ∧
      ((store.get w).aliasOf = none ↔ ¬ store.LeadsInCircle v) ∧
      ∀ u, store.LeadsTo v u → (store.get u).aliasOf = none → u = w := by
  have hstep : ∀ v ∈ vs, store.standIn v ∈ vs := by
    intro v hv
    cases hlink : (store.get v).aliasOf with
    | none => rwa [isFixedPt_standIn hlink]
    | some link => exact standIn_of_link hlink ▸ hclosed v hv link hlink
  have hmem : store.standIn^[vs.length] v ∈ vs :=
    Set.MapsTo.iterate (s := {v | v ∈ vs}) hstep vs.length hv
  obtain ⟨period, hpositive, hperiodic⟩ := isPeriodicPt_iterate hstep hv
  refine ⟨_, hmem, followAliases_eq_iterate _ _, leadsTo_of_iterate rfl, ⟨?_, ?_⟩, ?_⟩
  · -- all circles that the chain leads to are at the end, where there is no link
    rintro hnone ⟨u, hu, negated, hcircle⟩
    obtain ⟨steps, hsteps⟩ := hu.iterate
    obtain ⟨circle, hcirclePositive, hreturn⟩ := hcircle.iterate
    obtain rfl := eq_of_isPeriodicPt rfl (isFixedPt_standIn hnone) hsteps hcirclePositive hreturn
    obtain ⟨link, hlink⟩ := hcircle.link
    rw [hnone] at hlink
    cases hlink
  · intro hends
    cases hlink : (store.get (store.standIn^[vs.length] v)).aliasOf with
    | none => rfl
    | some link =>
        exact absurd ⟨_, leadsTo_of_iterate rfl, circle_of_isPeriodicPt hlink hpositive hperiodic⟩ hends
  · intro u hu hnone
    obtain ⟨steps, hsteps⟩ := hu.iterate
    exact (eq_of_isPeriodicPt hsteps (isFixedPt_standIn hnone) rfl hpositive hperiodic).symm

end Variables

/-! ### Alias clauses of a text -/

namespace Source

namespace Model

/-- Alias clauses lead from the first component to the second. The sign changes with every clause that is
    negated. -/
inductive Aliases (text : Model) : String → String → Bool → Prop where
  | direct {c : Component} {clause : AliasClause} (hc : c ∈ text.components)
      (hclause : c.aliasOf = some clause) : Aliases text c.name clause.target clause.negated
  | through {c : Component} {clause : AliasClause} {target : String} {negated : Bool}
      (hc : c ∈ text.components) (hclause : c.aliasOf = some clause)
      (hrest : Aliases text clause.target target negated) :
      Aliases text c.name target (clause.negated ^^ negated)

/-- Alias clauses, or none, lead from the first component to the second. -/
def LeadsTo (text : Model) (name target : String) : Prop :=
  target = name ∨ ∃ negated, text.Aliases name target negated

/-- Alias clauses lead from the component to one that is declared as an alias of itself, over others. -/
def LeadsInCircle (text : Model) (name : String) : Prop :=
  ∃ target, text.LeadsTo name target ∧ ∃ negated, text.Aliases target target negated

namespace TranslatesTo

variable {text : Model} {m : FlatDae.Model} (h : text.TranslatesTo m)
include h

/-- Every component is registered as a variable. -/
theorem exists_registered {c : Component} (hc : c ∈ text.components) :
    ∃ v ∈ m.registered, c.RegisteredAs m v := by
  obtain ⟨v, hv, hregistered⟩ := exists_right_of_forall₂ h.components hc
  exact ⟨v, Array.mem_toList_iff.1 hv, hregistered⟩

/-- An alias link is what an alias clause declares. -/
theorem clause_of_link {v : VarId} {link : Alias} (hv : v ∈ m.registered)
    (hlink : (m.store.get v).aliasOf = some link) : ∃ c ∈ text.components, ∃ clause,
      c.aliasOf = some clause ∧ (m.store.get v).name = c.name ∧ link.target ∈ m.registered ∧
      (m.store.get link.target).name = clause.target ∧ link.negated = clause.negated := by
  obtain ⟨c, hc, hregistered⟩ := exists_left_of_forall₂ h.components (Array.mem_toList_iff.2 hv)
  have halias := hregistered.aliasOf
  unfold Component.AliasedTo at halias
  cases hclause : c.aliasOf with
  | none =>
      rw [hclause, hlink] at halias
      cases halias
  | some clause =>
      rw [hclause] at halias
      obtain ⟨target, htarget, hname, heq⟩ := halias
      obtain rfl := Option.some.inj (hlink.symm.trans heq)
      exact ⟨c, hc, clause, hclause, hregistered.name, htarget, hname, rfl⟩

theorem aliases_of_aliasChain {v w : VarId} {negated : Bool} (hchain : m.store.AliasChain v w negated)
    (hv : v ∈ m.registered) :
    w ∈ m.registered ∧ text.Aliases (m.store.get v).name (m.store.get w).name negated := by
  induction hchain with
  | direct hlink =>
      obtain ⟨c, hc, clause, hclause, hname, htarget, htargetName, rfl⟩ := h.clause_of_link hv hlink
      exact ⟨htarget, hname ▸ htargetName ▸ .direct hc hclause⟩
  | through hlink _ ih =>
      obtain ⟨c, hc, clause, hclause, hname, htarget, htargetName, rfl⟩ := h.clause_of_link hv hlink
      obtain ⟨hw, hrest⟩ := ih htarget
      exact ⟨hw, hname ▸ .through hc hclause (htargetName ▸ hrest)⟩

variable (htext : text.WellFormed)
include htext

/-- A variable that is called like a component is what the component declares. -/
theorem registeredAs_of_name {c : Component} (hc : c ∈ text.components) {v : VarId}
    (hv : v ∈ m.registered) (hname : (m.store.get v).name = c.name) : c.RegisteredAs m v := by
  obtain ⟨w, hw, hregistered⟩ := h.exists_registered hc
  rwa [h.eq_of_name htext hv hw (hname.trans hregistered.name.symm)]

theorem aliasChain_of_aliases {name target : String} {negated : Bool}
    (haliases : text.Aliases name target negated) {v : VarId} (hv : v ∈ m.registered)
    (hname : (m.store.get v).name = name) :
    ∃ w ∈ m.registered, (m.store.get w).name = target ∧ m.store.AliasChain v w negated := by
  have hlink {c : Component} {clause : AliasClause} (hc : c ∈ text.components)
      (hclause : c.aliasOf = some clause) {v : VarId} (hv : v ∈ m.registered)
      (hname : (m.store.get v).name = c.name) : ∃ w ∈ m.registered,
        (m.store.get w).name = clause.target ∧
        (m.store.get v).aliasOf = some { target := w, negated := clause.negated } := by
    have halias := (h.registeredAs_of_name htext hc hv hname).aliasOf
    rwa [Component.AliasedTo, hclause] at halias
  induction haliases generalizing v with
  | direct hc hclause =>
      obtain ⟨w, hw, htarget, hv'⟩ := hlink hc hclause hv hname
      exact ⟨w, hw, htarget, .direct hv'⟩
  | through hc hclause _ ih =>
      obtain ⟨u, hu, htarget, hv'⟩ := hlink hc hclause hv hname
      obtain ⟨w, hw, hwName, hrest⟩ := ih hu htarget
      exact ⟨w, hw, hwName, .through hv' hrest⟩

theorem leadsTo_iff {v w : VarId} (hv : v ∈ m.registered) (hw : w ∈ m.registered) :
    text.LeadsTo (m.store.get v).name (m.store.get w).name ↔ m.store.LeadsTo v w := by
  constructor
  · rintro (hsame | ⟨negated, haliases⟩)
    · exact Or.inl (h.eq_of_name htext hw hv hsame)
    · obtain ⟨w', hw', hname, hchain⟩ := h.aliasChain_of_aliases htext haliases hv rfl
      obtain rfl := h.eq_of_name htext hw' hw hname
      exact Or.inr ⟨negated, hchain⟩
  · rintro (rfl | ⟨negated, hchain⟩)
    · exact Or.inl rfl
    · exact Or.inr ⟨negated, (h.aliases_of_aliasChain hchain hv).2⟩

/-- The links of a variable lead in a circle if the clauses of its component do. -/
theorem leadsInCircle_iff {v : VarId} (hv : v ∈ m.registered) :
    text.LeadsInCircle (m.store.get v).name ↔ m.store.LeadsInCircle v := by
  constructor
  · rintro ⟨target, hleads, negated, hcircle⟩
    have hregistered : ∃ w ∈ m.registered, (m.store.get w).name = target := by
      rcases hleads with rfl | ⟨negated', haliases⟩
      · exact ⟨v, hv, rfl⟩
      · obtain ⟨w, hw, hname, -⟩ := h.aliasChain_of_aliases htext haliases hv rfl
        exact ⟨w, hw, hname⟩
    obtain ⟨w, hw, rfl⟩ := hregistered
    obtain ⟨w', hw', hname, hchain⟩ := h.aliasChain_of_aliases htext hcircle hw rfl
    obtain rfl := h.eq_of_name htext hw' hw hname
    exact ⟨w', (h.leadsTo_iff htext hv hw).1 hleads, negated, hchain⟩
  · rintro ⟨w, hleads, negated, hcircle⟩
    have hw : w ∈ m.registered := by
      rcases hleads with rfl | ⟨negated', hchain⟩
      · exact hv
      · exact (h.aliases_of_aliasChain hchain hv).1
    exact ⟨_, (h.leadsTo_iff htext hv hw).2 hleads, negated, (h.aliases_of_aliasChain hcircle hw).2⟩

end TranslatesTo

end Model

end Source

namespace Model

/-- Every component of a text has a representative, which its alias clauses lead to. It is a model variable
    and the only one that they lead to, unless they lead in a circle; then it is an alias itself, and no
    model variable stands for the component. -/
theorem ofText_representatives {s : String} {m : Model} (h : Model.ofText s = .ok m) :
    ∃ text, Source.parse s = .ok text ∧ ∀ c ∈ text.components, ∃ w ∈ m.registered,
      m.representative? c.name = some w ∧ text.LeadsTo c.name (m.store.get w).name ∧
      (w ∈ m.modelVariables ↔ ¬ text.LeadsInCircle c.name) ∧
      ∀ u ∈ m.modelVariables, text.LeadsTo c.name (m.store.get u).name → u = w := by
  obtain ⟨text, hparse, htext, htranslates, hassembled⟩ := Model.ofText_eq_ok h
  refine ⟨text, hparse, fun c hc => ?_⟩
  obtain ⟨v, hv, hregistered⟩ := htranslates.exists_registered hc
  have hname := hregistered.name
  have hclosed : ∀ v ∈ m.registered.toList, ∀ link, (m.store.get v).aliasOf = some link →
      link.target ∈ m.registered.toList := by
    intro v hv link hlink
    obtain ⟨-, -, -, -, -, htarget, -⟩ :=
      htranslates.clause_of_link (Array.mem_toList_iff.1 hv) hlink
    exact Array.mem_toList_iff.2 htarget
  obtain ⟨w, hw, hfollow, hleads, hends, hunique⟩ :=
    Variables.followAliases_spec hclosed (Array.mem_toList_iff.2 hv)
  rw [Array.mem_toList_iff] at hw
  have hmodelVariable {u : VarId} :
      u ∈ m.modelVariables ↔ u ∈ m.registered ∧ (m.store.get u).aliasOf = none := by
    simp [modelVariables, Variable.isAlias, Array.mem_toList_iff]
  refine ⟨w, hw, ?_, ?_, ?_, ?_⟩
  · have hfound : m.findVariable? c.name = some v :=
      hassembled.registeredApart.findVariable?_eq_some_iff.2 ⟨hv, hname⟩
    rw [representative?, hfound, Option.map_some, ← hfollow, Array.length_toList]
  · rw [← hname]
    exact (htranslates.leadsTo_iff htext hv hw).2 hleads
  · rw [hmodelVariable, hends, ← hname, htranslates.leadsInCircle_iff htext hv]
    exact and_iff_right hw
  · intro u hu hlead
    obtain ⟨hu, hnone⟩ := hmodelVariable.1 hu
    rw [← hname, htranslates.leadsTo_iff htext hv hu] at hlead
    exact hunique u hlead hnone

/-- A chain of two aliases. -/
def aliasChainText : String := "model A Real x alias y; Real y alias -z; Real z; end A;"

set_option maxRecDepth 100000 in
theorem aliasChainText_isOk : (Model.ofText aliasChainText).isOk = true := by decide +kernel

theorem ofText_representatives_aliasChainText :
    ∃ m, Model.ofText aliasChainText = .ok m ∧ ∃ text, Source.parse aliasChainText = .ok text ∧
      ∀ c ∈ text.components, ∃ w ∈ m.registered, m.representative? c.name = some w ∧
        (w ∈ m.modelVariables ↔ ¬ text.LeadsInCircle c.name) := by
  obtain ⟨m, hm⟩ := Model.exists_ofText_of_isOk aliasChainText_isOk
  obtain ⟨text, hparse, hcomponents⟩ := Model.ofText_representatives hm
  refine ⟨m, hm, text, hparse, fun c hc => ?_⟩
  obtain ⟨w, hw, hfound, -, hends, -⟩ := hcomponents c hc
  exact ⟨w, hw, hfound, hends⟩

/-- Two aliases of each other, which pass the check that no component is an alias of itself. -/
def aliasCircleText : String := "model A Real a alias b; Real b alias a; end A;"

set_option maxRecDepth 100000 in
theorem aliasCircleText_links : (Model.ofText aliasCircleText).toOption.map (fun m =>
    (m.modelVariables, m.findVariable? "a", m.representative? "a")) =
    some ([], some ⟨0⟩, some ⟨0⟩) := by decide +kernel

/-- Neither of the two has a model variable that stands for it. -/
theorem ofText_representatives_aliasCircleText :
    ∃ m, Model.ofText aliasCircleText = .ok m ∧ m.modelVariables = [] ∧
      m.representative? "a" = some ⟨0⟩ ∧ (⟨0⟩ : VarId) ∉ m.modelVariables ∧
      ¬ ∀ name, (m.findVariable? name).isSome = true →
        ∃ w ∈ m.modelVariables, m.representative? name = some w := by
  have hlinks := aliasCircleText_links
  cases hm : Model.ofText aliasCircleText with
  | error failure =>
      rw [hm] at hlinks
      cases hlinks
  | ok m =>
      rw [hm] at hlinks
      obtain ⟨hnone, hfound⟩ := Prod.mk.inj (Option.some.inj hlinks)
      obtain ⟨hfound, hrepresentative⟩ := Prod.mk.inj hfound
      refine ⟨m, rfl, hnone, hrepresentative, by simp [hnone], fun hall => ?_⟩
      obtain ⟨w, hw, -⟩ := hall "a" (by simp [hfound])
      simp [hnone] at hw

end Model

end FlatDae
