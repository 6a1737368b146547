/-
Module: FlatDae.Proofs.DerivativeChains
Purpose: Where following derivative links leads in the model of a text. Every link stands for an equation
  `d = der(x)` or `der(x) = d` of two real continuous components, and each equation is read on its own,
  so the equations together may make a variable the derivative of itself. A chain of links comes back to
  a variable only if the equations of the text lead in a circle. Where they do not, it ends after no more
  links than there are variables.
Main exports: Variables.derivativeAfter, Variables.DerivativesReturn, Source.Model.Derives,
  Source.Model.DerivesInCircle, Source.Model.TranslatesTo.differentiates_iff, Model.ofText_derivativeChains
-/
import FlatDae.Proofs.TextLinks
import FlatDae.Proofs.DeclaredKinds
import Mathlib.Data.Finset.Card
import Mathlib.Logic.Relation

namespace FlatDae

open Relation (ReflTransGen TransGen)

/-! ### Chains of a store -/

namespace Variables

/-- The variable that a number of derivative links leads to. -/
def derivativeAfter (store : Variables) : Nat → VarId → Option VarId
  | 0, v => some v
  | steps + 1, v => (store.get v).derivative.bind (store.derivativeAfter steps)

/-- Following derivative links from the variable comes back to a variable that it has visited. -/
def DerivativesReturn (store : Variables) (v : VarId) : Prop :=
  ∃ i j w, i < j ∧ store.derivativeAfter i v = some w ∧ store.derivativeAfter j v = some w

/-- The second variable is linked as the derivative of the first. -/
def HasDerivative (store : Variables) (v w : VarId) : Prop := (store.get v).derivative = some w

variable {store : Variables} {v w : VarId}

theorem derivativeAfter_succ_of_link (h : store.HasDerivative v w) (steps : Nat) :
    store.derivativeAfter (steps + 1) v = store.derivativeAfter steps w := by
  rw [derivativeAfter, h, Option.bind_some]

theorem derivativeAfter_add (i j : Nat) (v : VarId) :
    store.derivativeAfter (i + j) v = (store.derivativeAfter i v).bind (store.derivativeAfter j) := by
  induction i generalizing v with
  | zero => rw [Nat.zero_add, derivativeAfter, Option.bind_some]
  | succ i ih =>
      rw [Nat.succ_add, derivativeAfter, derivativeAfter, Option.bind_assoc]
      exact Option.bind_congr fun w _ => ih w

/-- A chain does not go on where it has ended. -/
theorem derivativeAfter_eq_none_of_le {i j : Nat} (h : store.derivativeAfter i v = none) (hle : i ≤ j) :
    store.derivativeAfter j v = none := by
  obtain ⟨rest, rfl⟩ := Nat.exists_eq_add_of_le hle
  rw [derivativeAfter_add, h, Option.bind_none]

/-- A number of steps is a chain of links. -/
theorem reflTransGen_of_derivativeAfter {steps : Nat} (h : store.derivativeAfter steps v = some w) :
    ReflTransGen store.HasDerivative v w := by
  induction steps generalizing v with
  | zero =>
      obtain rfl := Option.some.inj h
      exact .refl
  | succ steps ih =>
      obtain ⟨u, hu, hrest⟩ := Option.bind_eq_some_iff.1 h
      exact .head hu (ih hrest)

/-- A chain of links is a number of steps. -/
theorem exists_derivativeAfter (h : ReflTransGen store.HasDerivative v w) :
    ∃ steps, store.derivativeAfter steps v = some w := by
  induction h with
  | refl => exact ⟨0, rfl⟩
  | tail _ hlink ih =>
      obtain ⟨steps, hsteps⟩ := ih
      refine ⟨steps + 1, ?_⟩
      rw [derivativeAfter_add, hsteps, Option.bind_some, derivativeAfter_succ_of_link hlink]
      rfl

/-- A chain comes back to a variable that it leads to and that links lead back to. -/
theorem derivativesReturn_iff : store.DerivativesReturn v ↔
    ∃ w, ReflTransGen store.HasDerivative v w ∧ TransGen store.HasDerivative w w := by
  constructor
  · rintro ⟨i, j, w, hlt, hi, hj⟩
    obtain ⟨rest, rfl⟩ := Nat.exists_eq_add_of_lt hlt
    rw [Nat.add_assoc, derivativeAfter_add, hi, Option.bind_some] at hj
    obtain ⟨u, hu, hback⟩ := Option.bind_eq_some_iff.1 hj
    exact ⟨w, reflTransGen_of_derivativeAfter hi, .head' hu (reflTransGen_of_derivativeAfter hback)⟩
  · rintro ⟨w, hleads, hcircle⟩
    obtain ⟨i, hi⟩ := exists_derivativeAfter hleads
    obtain ⟨u, hu, hback⟩ := TransGen.head'_iff.1 hcircle
    obtain ⟨rest, hrest⟩ := exists_derivativeAfter hback
    refine ⟨i, i + (rest + 1), w, by omega, hi, ?_⟩
    rw [derivativeAfter_add, hi, Option.bind_some, derivativeAfter_succ_of_link hu, hrest]

/-- Among variables that link only to each other, a chain of as many links as there are variables has
    come back. -/
theorem derivativesReturn_of_isSome {vs : List VarId}
    (hclosed : ∀ v w, store.HasDerivative v w → w ∈ vs) (hv : v ∈ vs)
    (h : (store.derivativeAfter vs.length v).isSome = true) : store.DerivativesReturn v := by
  have hvisited : ∀ i ≤ vs.length, ∃ w ∈ vs, store.derivativeAfter i v = some w := by
    intro i hle
    cases hcase : store.derivativeAfter i v with
    | none =>
        rw [derivativeAfter_eq_none_of_le hcase hle] at h
        cases h
    | some w =>
        rcases ReflTransGen.cases_tail (reflTransGen_of_derivativeAfter hcase) with rfl | ⟨u, -, hlink⟩
        · exact ⟨_, hv, rfl⟩
        · exact ⟨w, hclosed u w hlink, rfl⟩
  -- there are more numbers of steps than variables
  have hcard : vs.toFinset.card < (Finset.range (vs.length + 1)).card := by
    rw [Finset.card_range]
    exact Nat.lt_succ_of_le (List.toFinset_card_le vs)
  obtain ⟨i, hi, j, hj, hne, heq⟩ := Finset.exists_ne_map_eq_of_card_lt_of_maps_to hcard
    (f := fun i => (store.derivativeAfter i v).getD v) fun i hi => by
      obtain ⟨w, hw, hafter⟩ := hvisited i (Nat.lt_succ_iff.1 (Finset.mem_range.1 hi))
      simpa [hafter] using hw
  obtain ⟨w, -, hw⟩ := hvisited i (Nat.lt_succ_iff.1 (Finset.mem_range.1 hi))
  obtain ⟨w', -, hw'⟩ := hvisited j (Nat.lt_succ_iff.1 (Finset.mem_range.1 hj))
  simp only [hw, hw', Option.getD_some] at heq
  subst heq
  rcases Nat.lt_or_gt_of_ne hne with hlt | hlt
  · exact ⟨i, j, w, hlt, hw, hw'⟩
  · exact ⟨j, i, w, hlt, hw', hw⟩

end Variables

/-! ### Derivatives in the equations of a text -/

namespace Source

/-- The component is real, continuous and no input: no word but `output` is in front of its type. -/
structure Component.IsContinuous (text : Model) (c : Component) : Prop where
  domain : text.domainOf? c.typeName = some .real
  words : ∀ q ∈ c.qualifiers, q = .output

namespace Model

/-- An equation `d = der(x)` or `der(x) = d` makes one such component the derivative of another. -/
structure Derives (text : Model) (x d : String) : Prop where
  equation : (d, x) ∈ text.derivatives
  derivative : ∃ c ∈ text.components, c.name = d ∧ c.IsContinuous text
  differentiated : ∃ c ∈ text.components, c.name = x ∧ c.IsContinuous text

/-- Equations lead from the component, over derivatives, to one that is a derivative of itself. -/
def DerivesInCircle (text : Model) (name : String) : Prop :=
  ∃ circle, ReflTransGen text.Derives name circle ∧ TransGen text.Derives circle circle

/-- No component has two derivatives. -/
def DerivesOnce (text : Model) : Prop := ∀ x d d', text.Derives x d → text.Derives x d' → d = d'

namespace TranslatesTo

variable {text : Model} {m : FlatDae.Model} (h : text.TranslatesTo m)
include h

/-- A name means the symbol of a registered variable only if the variable has the name. -/
theorem name_eq_of_means {name : String} {v : VarId} (hmeans : m.Means name (m.store.get v).symbol) :
    (m.store.get v).name = name := by
  obtain ⟨id, hsymbol⟩ := h.symbol_of_means hmeans
  rw [(m.store.get v).name_eq, hsymbol, Expr.print_symbol]

variable (htext : text.WellFormed)
include htext

/-- A variable is continuous if its component is. -/
theorem isContinuous_iff {c : Component} {v : VarId} (hc : c.RegisteredAs m v) :
    c.IsContinuous text ↔ (m.store.get v).IsContinuous := by
  obtain ⟨type, htype, -, hdomain⟩ := hc.type
  have hdomainOf := h.domainOf?_eq htext htype
  have hvariability := hc.variability
  have hcausality := hc.causality
  constructor
  · rintro ⟨hreal, hwords⟩
    have hdomainReal : (m.store.get v).domain = .real :=
      hdomain.symm.trans (Option.some.inj (hdomainOf.symm.trans hreal))
    refine ⟨hdomainReal, ?_, fun hinput => ?_⟩
    · cases hcase : (m.store.get v).variability with
      | continuous => rfl
      | constant | parameter =>
          rw [hcase] at hvariability
          cases hwords _ hvariability.1
      | discrete =>
          rw [hcase] at hvariability
          rcases hvariability.2.2 with hdiscrete | hother
          · cases hwords _ hdiscrete
          · exact absurd hdomainReal hother
    · rw [hinput] at hcausality
      cases hwords _ hcausality.1
  · rintro ⟨hreal, hcontinuous, hnoInput⟩
    rw [hcontinuous] at hvariability
    obtain ⟨hconstant, hparameter, hdiscrete, -⟩ := hvariability
    have hinput : .input ∉ c.qualifiers := by
      cases hcase : (m.store.get v).causality with
      | input => exact absurd hcase hnoInput
      | output =>
          rw [hcase] at hcausality
          exact hcausality.2
      | internal =>
          rw [hcase] at hcausality
          exact hcausality.1
    refine ⟨by rw [hdomainOf, hdomain, hreal], fun q hq => ?_⟩
    cases q with
    | output => rfl
    | constant => exact absurd hq hconstant
    | parameter => exact absurd hq hparameter
    | discrete => exact absurd hq hdiscrete
    | input => exact absurd hq hinput

/-- Components that are continuous are registered variables that are. -/
theorem exists_continuous_iff {v : VarId} (hv : v ∈ m.registered) :
    (∃ c ∈ text.components, c.name = (m.store.get v).name ∧ c.IsContinuous text) ↔
      (m.store.get v).IsContinuous := by
  constructor
  · rintro ⟨c, hc, hname, hcontinuous⟩
    obtain ⟨w, hw, hregistered⟩ := exists_right_of_forall₂ h.components hc
    obtain rfl := h.eq_of_name htext (Array.mem_toList_iff.1 hw) hv (hregistered.name.trans hname)
    exact (h.isContinuous_iff htext hregistered).1 hcontinuous
  · intro hcontinuous
    obtain ⟨c, hc, hregistered⟩ := exists_left_of_forall₂ h.components (Array.mem_toList_iff.2 hv)
    exact ⟨c, hc, hregistered.name.symm, (h.isContinuous_iff htext hregistered).2 hcontinuous⟩

/-- What the equations of the model say of two variables is what those of the text say of their names. -/
theorem saysDerivative_iff {d x : VarId} (hd : d ∈ m.registered) (hx : x ∈ m.registered) :
    (∃ eq ∈ m.equations, eq.SaysDerivative (m.store.get d).symbol (m.store.get x).symbol) ↔
      ((m.store.get d).name, (m.store.get x).name) ∈ text.derivatives := by
  have hequations : List.Forall₂ (Equation.TranslatesTo m.Means)
      (text.initialEquations ++ text.equations) m.equations :=
    List.rel_append h.initialEquations h.equations
  have hspec {eq : Equation} {built : FlatDae.Equation} (heq : eq.TranslatesTo m.Means built) :=
    ofEquation?_of_translatesTo heq fun _ _ hmeans => h.symbol_of_means hmeans
  constructor
  · rintro ⟨built, hbuilt, hstated⟩
    obtain ⟨eq, heq, htranslates⟩ := exists_left_of_forall₂ hequations hbuilt
    refine List.mem_filterMap.2 ⟨eq, heq, ?_⟩
    have hrelation := hspec htranslates
    have hsaid : DerivativeRelation.ofEquation? built =
        some ⟨(m.store.get d).symbol, (m.store.get x).symbol⟩ :=
      DerivativeRelation.ofEquation?_eq_some_iff.2 hstated
    cases hnames : eq.derivative? with
    | none =>
        rw [hnames] at hrelation
        cases hrelation.symm.trans hsaid
    | some names =>
        rw [hnames] at hrelation
        obtain ⟨r, hr, hdname, hxname⟩ := hrelation
        obtain rfl := Option.some.inj (hr.symm.trans hsaid)
        rw [h.name_eq_of_means hdname, h.name_eq_of_means hxname]
  · intro hmem
    obtain ⟨eq, heq, hnames⟩ := List.mem_filterMap.1 hmem
    obtain ⟨built, hbuilt, htranslates⟩ := exists_right_of_forall₂ hequations heq
    have hrelation := hspec htranslates
    rw [hnames] at hrelation
    obtain ⟨r, hr, hdname, hxname⟩ := hrelation
    have hdsymbol := h.means_unique htext hdname (Or.inr ⟨d, hd, rfl, rfl⟩)
    have hxsymbol := h.means_unique htext hxname (Or.inr ⟨x, hx, rfl, rfl⟩)
    exact ⟨built, hbuilt, hdsymbol ▸ hxsymbol ▸ DerivativeRelation.ofEquation?_eq_some_iff.1 hr⟩

theorem differentiates_iff {d x : VarId} (hd : d ∈ m.registered) (hx : x ∈ m.registered) :
    m.Differentiates d x ↔ text.Derives (m.store.get x).name (m.store.get d).name := by
  have hstated := h.saysDerivative_iff htext hd hx
  have hdcontinuous := h.exists_continuous_iff htext hd
  have hxcontinuous := h.exists_continuous_iff htext hx
  exact ⟨fun hdiff => ⟨hstated.1 hdiff.equation, hdcontinuous.2 hdiff.derivative_continuous,
      hxcontinuous.2 hdiff.differentiated_continuous⟩,
    fun hderives => ⟨hd, hx, hdcontinuous.1 hderives.derivative, hxcontinuous.1 hderives.differentiated,
      hstated.2 hderives.equation⟩⟩

omit htext in
/-- What the equations say of a component is said of a registered variable. -/
theorem exists_registered_of_derives {x d : String} (hderives : text.Derives x d) :
    (∃ v ∈ m.registered, (m.store.get v).name = x) ∧ ∃ w ∈ m.registered, (m.store.get w).name = d := by
  have hregistered {name : String} (hname : ∃ c ∈ text.components, c.name = name ∧ c.IsContinuous text) :
      ∃ v ∈ m.registered, (m.store.get v).name = name := by
    obtain ⟨c, hc, rfl, -⟩ := hname
    obtain ⟨v, hv, hregistered⟩ := exists_right_of_forall₂ h.components hc
    exact ⟨v, Array.mem_toList_iff.1 hv, hregistered.name⟩
  exact ⟨hregistered hderives.differentiated, hregistered hderives.derivative⟩

end TranslatesTo

end Model

end Source

/-! ### Chains in the model of a text -/

namespace Model

/-- A chain of links comes back or ends, after no more links than there are variables. -/
theorem PairedLinks.return_or_end {m : Model} (h : m.PairedLinks) {v : VarId} (hv : v ∈ m.registered) :
    m.store.DerivativesReturn v ∨
      ∃ steps ≤ m.registered.size, m.store.derivativeAfter steps v = none := by
  have hclosed (x d : VarId) (hlink : m.store.HasDerivative x d) : d ∈ m.registered.toList :=
    Array.mem_toList_iff.2 (h.linked d x (Or.inl hlink)).derivative_mem
  cases hend : m.store.derivativeAfter m.registered.toList.length v with
  | none => exact Or.inr ⟨_, Nat.le_of_eq (Array.length_toList ..), hend⟩
  | some w =>
      exact Or.inl (Variables.derivativesReturn_of_isSome hclosed (Array.mem_toList_iff.2 hv)
        (Option.isSome_of_eq_some hend))

section Paired

variable {text : Source.Model} {m : Model} (h : text.TranslatesTo m) (htext : text.WellFormed)
  (hpaired : m.PairedLinks)
include h htext hpaired

/-- A link stands for an equation of the text. -/
theorem PairedLinks.derives {x d : VarId} (hlink : m.store.HasDerivative x d) :
    x ∈ m.registered ∧ d ∈ m.registered ∧ text.Derives (m.store.get x).name (m.store.get d).name := by
  have hdiff := hpaired.linked d x (Or.inl hlink)
  exact ⟨hdiff.differentiated_mem, hdiff.derivative_mem,
    (h.differentiates_iff htext hdiff.derivative_mem hdiff.differentiated_mem).1 hdiff⟩

/-- Links that come back follow equations that lead in a circle. -/
theorem PairedLinks.derivesInCircle {v : VarId} (hreturn : m.store.DerivativesReturn v) :
    text.DerivesInCircle (m.store.get v).name := by
  obtain ⟨w, hleads, hcircle⟩ := Variables.derivativesReturn_iff.1 hreturn
  have hstep (x d : VarId) (hlink : m.store.HasDerivative x d) :
      text.Derives (m.store.get x).name (m.store.get d).name := (hpaired.derives h htext hlink).2.2
  exact ⟨_, hleads.lift _ hstep, hcircle.lift _ hstep⟩

/-- Where no component has two derivatives, links follow the equations. -/
theorem PairedLinks.hasDerivative_of_derives (honce : text.DerivesOnce) {v : VarId} {d : String}
    (hv : v ∈ m.registered) (hderives : text.Derives (m.store.get v).name d) :
    ∃ w ∈ m.registered, (m.store.get w).name = d ∧ m.store.HasDerivative v w := by
  obtain ⟨-, w, hw, rfl⟩ := h.exists_registered_of_derives hderives
  obtain ⟨-, w', hlink, -⟩ := hpaired.ofDifferentiated v ⟨w, (h.differentiates_iff htext hw hv).2 hderives⟩
  obtain ⟨-, hw', hderives'⟩ := hpaired.derives h htext hlink
  exact ⟨w', hw', (honce _ _ _ hderives hderives').symm, hlink⟩

/-- So do chains of them. -/
theorem PairedLinks.leadsTo_of_derives (honce : text.DerivesOnce) {v : VarId} {name : String}
    (hv : v ∈ m.registered) (hleads : ReflTransGen text.Derives (m.store.get v).name name) :
    ∃ w ∈ m.registered, (m.store.get w).name = name ∧ ReflTransGen m.store.HasDerivative v w := by
  induction hleads with
  | refl => exact ⟨v, hv, rfl, .refl⟩
  | tail _ hderives ih =>
      obtain ⟨u, hu, rfl, hchain⟩ := ih
      obtain ⟨w, hw, hname, hlink⟩ := hpaired.hasDerivative_of_derives h htext honce hu hderives
      exact ⟨w, hw, hname, hchain.tail hlink⟩

theorem PairedLinks.derivativesReturn (honce : text.DerivesOnce) {v : VarId} (hv : v ∈ m.registered)
    (hcircle : text.DerivesInCircle (m.store.get v).name) : m.store.DerivativesReturn v := by
  obtain ⟨name, hleads, hback⟩ := hcircle
  obtain ⟨w, hw, rfl, hchain⟩ := hpaired.leadsTo_of_derives h htext honce hv hleads
  obtain ⟨d, hderives, hrest⟩ := TransGen.head'_iff.1 hback
  obtain ⟨u, hu, rfl, hlink⟩ := hpaired.hasDerivative_of_derives h htext honce hw hderives
  obtain ⟨w', hw', hname, hreturn⟩ := hpaired.leadsTo_of_derives h htext honce hu hrest
  obtain rfl := h.eq_of_name htext hw' hw hname
  exact Variables.derivativesReturn_iff.2 ⟨w', hchain, .head' hlink hreturn⟩

end Paired

/-- In the model of a text every link stands for an equation. Following derivative links comes back only
    where the equations lead in a circle, and always there if no component has two derivatives. Otherwise
    it ends, after no more links than there are variables. -/
theorem ofText_derivativeChains {s : String} {m : Model} (h : Model.ofText s = .ok m) :
    ∃ text, Source.parse s = .ok text ∧
      (∀ x d, m.store.HasDerivative x d → x ∈ m.registered ∧ d ∈ m.registered ∧
        text.Derives (m.store.get x).name (m.store.get d).name) ∧
      (∀ v, m.store.DerivativesReturn v → text.DerivesInCircle (m.store.get v).name) ∧
      (text.DerivesOnce → ∀ v ∈ m.registered, text.DerivesInCircle (m.store.get v).name →
        m.store.DerivativesReturn v) ∧
      ∀ v ∈ m.registered, m.store.DerivativesReturn v ∨
        ∃ steps ≤ m.registered.size, m.store.derivativeAfter steps v = none := by
  obtain ⟨text, hparse, htext, htranslates, hassembled⟩ := Model.ofText_eq_ok h
  obtain ⟨text', hparse', helaborate⟩ := exists_elaborateModel_of_ofText h
  obtain rfl := Except.ok.inj (hparse.symm.trans hparse')
  obtain ⟨before, hunaided, rfl⟩ := Elaboration.elaborateModel_unaided helaborate
  obtain ⟨g, hnodes⟩ := hassembled.nodes
  have hpaired := hunaided.pairedLinks_resolveLinks hnodes.statedIn hassembled.kinded
  exact ⟨text, hparse, fun _ _ => hpaired.derives htranslates htext,
    fun _ => hpaired.derivesInCircle htranslates htext,
    fun honce _ => hpaired.derivativesReturn htranslates htext honce, fun _ => hpaired.return_or_end⟩

theorem ofText_derivativeChains_chainText : ∃ m, Model.ofText chainText = .ok m ∧
    ∃ text, Source.parse chainText = .ok text ∧
      (∀ v, m.store.DerivativesReturn v → text.DerivesInCircle (m.store.get v).name) ∧
      ∀ v ∈ m.registered, m.store.DerivativesReturn v ∨
        ∃ steps ≤ m.registered.size, m.store.derivativeAfter steps v = none := by
  obtain ⟨m, hm⟩ := exists_ofText_of_isOk chainText_isOk
  obtain ⟨text, hparse, -, hcircle, -, hends⟩ := ofText_derivativeChains hm
  exact ⟨m, hm, text, hparse, hcircle, hends⟩

/-- A variable that its equation makes the derivative of itself, and two that are derivatives of each
    other. -/
def derivativeCircleText : String :=
  "model A Real x; Real v; Real w; equation x = der(x); w = der(v); der(w) = v; end A;"

set_option maxRecDepth 100000 in
theorem derivativeCircleText_links : (Model.ofText derivativeCircleText).toOption.map (fun m =>
    (m.registered.toList, m.registered.toList.map fun v => (m.store.get v).derivative)) =
    some ([⟨0⟩, ⟨1⟩, ⟨2⟩], [some ⟨0⟩, some ⟨2⟩, some ⟨1⟩]) := by decide +kernel

/-- Chains of derivative links may come back. -/
theorem ofText_derivativeChains_derivativeCircleText :
    ¬ ∀ s m, Model.ofText s = .ok m → ∀ v ∈ m.registered, ¬ m.store.DerivativesReturn v := by
  intro hall
  have hlinks := derivativeCircleText_links
  cases hm : Model.ofText derivativeCircleText with
  | error failure =>
      rw [hm] at hlinks
      cases hlinks
  | ok m =>
      rw [hm] at hlinks
      obtain ⟨hregistered, hlinks⟩ := Prod.mk.inj (Option.some.inj hlinks)
      rw [hregistered] at hlinks
      simp only [List.map_cons, List.cons.injEq] at hlinks
      have hmem : (⟨0⟩ : VarId) ∈ m.registered := by
        rw [← Array.mem_toList_iff, hregistered]
        exact List.mem_cons_self
      refine hall _ m hm ⟨0⟩ hmem ⟨0, 1, ⟨0⟩, Nat.one_pos, rfl, ?_⟩
      rw [Variables.derivativeAfter_succ_of_link hlinks.1]
      rfl

end Model

end FlatDae
