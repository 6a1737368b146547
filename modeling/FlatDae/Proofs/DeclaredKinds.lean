/-
Module: FlatDae.Proofs.DeclaredKinds
Purpose: The kinds of the variables of a text's model. The kind of a variable can be read off the text:
  it follows from the type, the qualifiers and the binding of its component, and, if it is real and
  continuous and no input, from the equations of the text that say `d = der(x)`. It is the kind that the
  variable has in the model.
Main exports: Source.Equation.derivative?, Source.Model.kindByWords, Source.Model.declaredKind,
  Source.ofEquation?_of_translatesTo, Source.Model.TranslatesTo.kind_eq
-/
import FlatDae.Proofs.ModelFidelity

namespace FlatDae

open FlatDae.Expr (Graph)

namespace Source

/-! ### Kinds as the text declares them -/

mutual

/-- Whether a name stands anywhere in the expression. -/
def Expression.mentionsName : Expression → Bool
  | .number _ _ => false
  | .truth _ _ => false
  | .name _ _ => true
  | .signed _ _ operand => operand.mentionsName
  | .binary _ _ left right => left.mentionsName || right.mentionsName
  | .call _ _ args _ => anyMentionsName args

/-- Whether a name stands anywhere in the expressions. -/
def anyMentionsName : List Expression → Bool
  | [] => false
  | e :: es => e.mentionsName || anyMentionsName es

end

/-- The name that the expression is, which may have plus signs in front of it. -/
def Expression.asName? : Expression → Option String
  | .name _ n => some n
  | .signed _ .plus operand => operand.asName?
  | _ => none

/-- The name `x` if the expression is `der(x)`, which may have plus signs in front of it. -/
def Expression.asDerivative? : Expression → Option String
  | .call _ function [arg] none => if function = "der" then arg.asName? else none
  | .signed _ .plus operand => operand.asDerivative?
  | _ => none

/-- The names `d` and `x` of an equation `d = der(x)` or `der(x) = d`. -/
def Equation.derivative? (eq : Equation) : Option (String × String) :=
  match eq.lhs.asName?, eq.rhs.asDerivative? with
  | some d, some x => some (d, x)
  | _, _ =>
    match eq.rhs.asName?, eq.lhs.asDerivative? with
    | some d, some x => some (d, x)
    | _, _ => none

/-- The expression that a component is bound to. -/
def Component.boundTo? (c : Component) : Option Expression :=
  match lastValue? c.allSettings Variable.bindingAttribute with
  | some (.expression e) => some e
  | _ => none

/-- What all equations, initial ones among them, say of derivatives. -/
def Model.derivatives (text : Model) : List (String × String) :=
  (text.initialEquations ++ text.equations).filterMap Equation.derivative?

/-- The domain of a built-in or declared type. -/
def Model.domainOf? (text : Model) (typeName : String) : Option Domain :=
  match Domain.ofName? typeName with
  | some domain => some domain
  | none => (text.types.find? (·.name = typeName)).bind fun d => Domain.ofName? d.base

/-- The kind of a component of a domain by the words in front of its type, by its binding, which makes a
    parameter dependent if it mentions a name, and by all equations of the text. -/
def Model.kindByWords (text : Model) (c : Component) (domain : Domain) : VariableKind :=
  if .constant ∈ c.qualifiers then .constant domain
  else if .parameter ∈ c.qualifiers then
    if c.boundTo?.any (·.mentionsName) then .dependentParameter domain else .independentParameter domain
  else if .input ∈ c.qualifiers then .input domain
  else if .discrete ∈ c.qualifiers ∨ domain ≠ .real then .discrete domain
  else if text.derivatives.any (·.1 = c.name) then .derivative
  else if text.derivatives.any (·.2 = c.name) then .differentiated
  else if .output ∈ c.qualifiers then .output
  else .algebraic

/-- The kind of a component by its declaration and all equations of the text. -/
def Model.declaredKind (text : Model) (c : Component) : Option VariableKind :=
  (text.domainOf? c.typeName).map (text.kindByWords c)

/-! ### Names and symbols -/

theorem anyMentionsName_iff {es : List Expression} :
    anyMentionsName es = true ↔ ∃ e ∈ es, e.mentionsName = true := by
  induction es with
  | nil => simp [anyMentionsName]
  | cons e es ih => simp [anyMentionsName, ih]

/-- A node that is no symbol has a symbol within it if a child has. -/
theorem exists_symbol_within_iff {x : Expr} (hx : x.isSymbol = false) :
    (∃ id name, Expr.Within (.symbol id name) x) ↔
      ∃ c ∈ x.children, ∃ id name, Expr.Within (.symbol id name) c := by
  constructor
  · rintro ⟨id, name, hin⟩
    cases hin with
    | self => cases hx
    | deeper hc hin => exact ⟨_, hc, id, name, hin⟩
  · rintro ⟨c, hc, id, name, hin⟩
    exact ⟨id, name, .deeper hc hin⟩

namespace Expression.TranslatesTo

variable {means : String → Expr → Prop} {e : Expression} {x : Expr} (h : e.TranslatesTo means x)
  (hmeans : ∀ name symbol, means name symbol → ∃ id, symbol = .symbol id name)
include h hmeans

/-- There are symbols in what an expression becomes if there are names in it. -/
theorem mentionsName_iff : e.mentionsName = true ↔ ∃ id name, Expr.Within (.symbol id name) x := by
  induction h with
  | number | truth =>
      rw [exists_symbol_within_iff rfl]
      simp [mentionsName, Expr.children]
  | name start hname =>
      obtain ⟨id, rfl⟩ := hmeans _ _ hname
      exact iff_of_true rfl ⟨id, _, .self _⟩
  | plus start _ ih => exact ih
  | minus start id _ ih | not start id _ ih =>
      rw [exists_symbol_within_iff rfl, mentionsName, ih]
      simp [Expr.children]
  | derivative start id _ ih | builtin start id _ _ ih =>
      rw [exists_symbol_within_iff rfl, mentionsName, anyMentionsName, anyMentionsName, Bool.or_false, ih]
      simp [Expr.children]
  | binary start id op _ _ ihleft ihright =>
      rw [exists_symbol_within_iff rfl, mentionsName, Bool.or_eq_true, ihleft, ihright]
      simp [Expr.children]
  | @declared start id function args children output _ hlength _ ih =>
      rw [exists_symbol_within_iff rfl, mentionsName, anyMentionsName_iff, Expr.children]
      constructor
      · rintro ⟨arg, harg, hmentions⟩
        rw [← List.map_fst_zip (Nat.le_of_eq hlength)] at harg
        obtain ⟨p, hp, rfl⟩ := List.mem_map.1 harg
        exact ⟨p.2, (List.of_mem_zip hp).2, (ih hp).1 hmentions⟩
      · rintro ⟨child, hchild, hsymbol⟩
        rw [← List.map_snd_zip (Nat.le_of_eq hlength.symm)] at hchild
        obtain ⟨p, hp, rfl⟩ := List.mem_map.1 hchild
        exact ⟨p.1, (List.of_mem_zip hp).1, (ih hp).2 hsymbol⟩

omit hmeans in
/-- What is a name becomes the symbol that the name means, and nothing else becomes a symbol. -/
theorem asName?_spec :
    match e.asName? with
    | some n => means n x
    | none => x.isSymbol = false := by
  induction h with
  | name start hname => exact hname
  | plus start _ ih => exact ih
  | _ => rfl

/-- What is the derivative of a name becomes the derivative of the symbol that the name means, and
    nothing else becomes the derivative of a symbol. -/
theorem asDerivative?_spec :
    match e.asDerivative? with
    | some n => ∃ symbol, x.derArgument?.filter Expr.isSymbol = some symbol ∧ means n symbol
    | none => x.derArgument?.filter Expr.isSymbol = none := by
  induction h with
  | name start hname =>
      obtain ⟨id, rfl⟩ := hmeans _ _ hname
      rfl
  | plus start _ ih => exact ih
  | @derivative start id arg child harg _ =>
      have hname := harg.asName?_spec
      rw [asDerivative?, if_pos rfl]
      cases hcase : arg.asName? with
      | some n =>
          rw [hcase] at hname
          obtain ⟨id', rfl⟩ := hmeans _ _ hname
          exact ⟨_, rfl, hname⟩
      | none =>
          rw [hcase] at hname
          simp only [Expr.derArgument?, Option.filter_some, hname]
          rfl
  | @builtin start id function op arg child hop _ _ =>
      have hder : function ≠ "der" := by
        rintro rfl
        cases hop
      rw [asDerivative?, if_neg hder]
      rfl
  | @declared start id function args children output hbuiltin _ _ _ =>
      have hder : function ≠ "der" := fun heq => hbuiltin (Or.inl heq)
      unfold asDerivative?
      split
      · rename_i heq
        split at heq
        · rename_i hcall
          cases hcall
          rw [if_neg hder] at heq
          cases heq
        · cases ‹Expression.call _ _ _ _ = _›
        · cases heq
      · rfl
  | _ => rfl

end Expression.TranslatesTo

end Source

/-! ### Equations and relations -/

/-- An equation with a symbol on the left is a relation if the right side is the derivative of a
    symbol. -/
theorem ofEquation?_symbol_left {lhs rhs : Expr} (h : lhs.isSymbol = true) :
    DerivativeRelation.ofEquation? ⟨lhs, rhs⟩ =
      (rhs.derArgument?.filter Expr.isSymbol).map fun x => ⟨lhs, x⟩ := by
  unfold DerivativeRelation.ofEquation?
  simp only [h, if_true, guard]
  cases rhs.derArgument? with
  | none => rfl
  | some x => cases hx : x.isSymbol <;> simp [hx, Option.filter]

/-- An equation with no symbol on the left is a relation if the right side is a symbol and the left the
    derivative of one. -/
theorem ofEquation?_symbol_right {lhs rhs : Expr} (h : lhs.isSymbol = false) :
    DerivativeRelation.ofEquation? ⟨lhs, rhs⟩ =
      if rhs.isSymbol then (lhs.derArgument?.filter Expr.isSymbol).map fun x => ⟨rhs, x⟩ else none := by
  unfold DerivativeRelation.ofEquation?
  simp only [h, Bool.false_eq_true, if_false, guard]
  cases hrhs : rhs.isSymbol with
  | false => rfl
  | true =>
      cases lhs.derArgument? with
      | none => rfl
      | some x => cases hx : x.isSymbol <;> simp [hx, Option.filter]

namespace Source

/-- An equation becomes a relation between what the names mean of which it says that one is the
    derivative of the other, and no other equation becomes a relation. -/
theorem ofEquation?_of_translatesTo {means : String → Expr → Prop} {eq : Equation}
    {built : FlatDae.Equation} (h : eq.TranslatesTo means built)
    (hmeans : ∀ name symbol, means name symbol → ∃ id, symbol = .symbol id name) :
    match eq.derivative? with
    | some (d, x) => ∃ r, DerivativeRelation.ofEquation? built = some r ∧ means d r.derivative ∧
        means x r.differentiated
    | none => DerivativeRelation.ofEquation? built = none := by
  obtain ⟨lhs, rhs⟩ := built
  have hlhs := h.lhs.asName?_spec
  have hrhs := h.rhs.asName?_spec
  have hlhs' := h.lhs.asDerivative?_spec hmeans
  have hrhs' := h.rhs.asDerivative?_spec hmeans
  unfold Equation.derivative?
  cases hleft : eq.lhs.asName? with
  | some d =>
      rw [hleft] at hlhs
      obtain ⟨id, rfl⟩ := hmeans _ _ hlhs
      rw [ofEquation?_symbol_left rfl]
      cases hder : eq.rhs.asDerivative? with
      | some x =>
          rw [hder] at hrhs'
          obtain ⟨symbol, hfilter, hx⟩ := hrhs'
          exact ⟨⟨_, symbol⟩, by rw [hfilter, Option.map_some], hlhs, hx⟩
      | none =>
          rw [hder] at hrhs'
          -- a symbol is no derivative
          have hnot : eq.lhs.asDerivative? = none := by
            cases hcase : eq.lhs.asDerivative? with
            | none => rfl
            | some x =>
                rw [hcase] at hlhs'
                obtain ⟨_, hfilter, -⟩ := hlhs'
                cases hfilter
          rw [hnot]
          cases eq.rhs.asName? <;> exact congrArg (Option.map _) hrhs'
  | none =>
      rw [hleft] at hlhs
      rw [ofEquation?_symbol_right hlhs]
      cases hright : eq.rhs.asName? with
      | none =>
          rw [hright] at hrhs
          exact if_neg (by rw [hrhs]; exact Bool.false_ne_true)
      | some d =>
          rw [hright] at hrhs
          obtain ⟨id, rfl⟩ := hmeans _ _ hrhs
          cases hder : eq.lhs.asDerivative? with
          | none =>
              rw [hder] at hlhs'
              exact congrArg (Option.map _) hlhs'
          | some x =>
              rw [hder] at hlhs'
              obtain ⟨symbol, hfilter, hx⟩ := hlhs'
              exact ⟨⟨_, symbol⟩, by rw [hfilter]; rfl, hrhs, hx⟩

/-- Elements of which one counts if the other does are counted in related lists alike. -/
theorem any_filterMap_of_forall₂ {α β γ δ : Type} {R : α → β → Prop} {f : α → Option γ}
    {g : β → Option δ} {p : γ → Bool} {q : δ → Bool} {as : List α} {bs : List β}
    (h : List.Forall₂ R as bs) (hR : ∀ a b, R a b → (f a).any p = (g b).any q) :
    (as.filterMap f).any p = (bs.filterMap g).any q := by
  induction h with
  | nil => rfl
  | @cons a b as bs hab _ ih =>
      have hfirst := hR a b hab
      rw [List.filterMap_cons, List.filterMap_cons]
      cases hf : f a with
      | none =>
          rw [hf] at hfirst
          cases hg : g b with
          | none => exact ih
          | some d =>
              rw [hg] at hfirst
              have hd : q d = false := hfirst.symm
              rw [List.any_cons, hd, Bool.false_or]
              exact ih
      | some c =>
          rw [hf] at hfirst
          cases hg : g b with
          | none =>
              rw [hg] at hfirst
              have hc : p c = false := hfirst
              rw [List.any_cons, hc, Bool.false_or]
              exact ih
          | some d =>
              rw [hg] at hfirst
              have hcd : p c = q d := hfirst
              rw [List.any_cons, List.any_cons, hcd, ih]

namespace Model.TranslatesTo

variable {text : Source.Model} {m : FlatDae.Model} (h : text.TranslatesTo m) (htext : text.WellFormed)
include h htext

/-- A type of the model has the domain that the text gives it. -/
theorem domainOf?_eq {typeName : String} {type : VariableType}
    (htype : m.types.get? typeName = some type) : text.domainOf? typeName = some type.domain := by
  unfold Model.domainOf?
  rcases h.onlyTypes typeName type htype with ⟨d, hd, rfl⟩ | ⟨domain, rfl, rfl⟩
  · obtain ⟨type', htype', htranslates⟩ := h.types d hd
    obtain rfl := Option.some.inj (htype.symm.trans htype')
    cases hbuiltin : Domain.ofName? d.name with
    | some domain =>
        have hbase := (htext.types d hd).builtinName domain hbuiltin
        exact hbase.symm.trans htranslates.domain
    | none =>
        have hfound := find?_eq_some_of_nodup (·.name) htext.typeNames hd
        simp only [hfound, Option.bind_some]
        exact htranslates.domain
  · have hname : Domain.ofName? domain.name = some domain := by cases domain <;> rfl
    rw [hname]
    rfl

omit htext in
/-- A variable is dependent if the expression that its component is bound to mentions a name. -/
theorem isDependent_eq {g : Graph} (hg : m.NodesIn g) {c : Component} {v : VarId}
    (hv : v ∈ m.registered) (hc : c.RegisteredAs m v) :
    isDependent (m.store.get v) = c.boundTo?.any (·.mentionsName) := by
  have hbound := hc.attributes Variable.bindingAttribute
  unfold isDependent Variable.binding? Component.boundTo?
  cases hlast : lastValue? c.allSettings Variable.bindingAttribute with
  | none =>
      rw [hlast] at hbound
      rw [hbound]
      rfl
  | some value =>
      rw [hlast] at hbound
      obtain ⟨stored, hstored, htranslates⟩ := hbound
      rw [hstored]
      cases htranslates with
      | text start s => rfl
      | @expression e x he =>
          have hx : x ∈ g := hg.attributes v hv _ _ hstored
          have hmentions := he.mentionsName_iff fun _ _ hmeans => h.symbol_of_means hmeans
          change (!x.symbols.isEmpty) = e.mentionsName
          rw [Bool.eq_iff_iff, hmentions, Bool.not_eq_true', ← Bool.not_eq_true, List.isEmpty_iff]
          constructor
          · intro hne
            obtain ⟨symbol, hsymbol⟩ := List.exists_mem_of_ne_nil _ hne
            obtain ⟨hsymbol, hin⟩ := (Expr.mem_symbols hx).1 hsymbol
            cases symbol with
            | symbol id name => exact ⟨id, name, hin⟩
            | _ => cases hsymbol
          · rintro ⟨id, name, hin⟩
            exact List.ne_nil_of_mem ((Expr.mem_symbols hx).2 ⟨rfl, hin⟩)

/-- Two names mean the same node if they are the same. -/
theorem same_eq_decide {g : Graph} (hg : m.NodesIn g) {name name' : String} {symbol symbol' : Expr}
    (hname : m.Means name symbol) (hname' : m.Means name' symbol') :
    symbol.same symbol' = decide (name = name') := by
  rw [Bool.eq_iff_iff, decide_eq_true_iff, Expr.same, beq_iff_eq]
  constructor
  · intro hid
    have heq := Graph.eq_of_id_eq (hg.meant _ _ hname) (hg.meant _ _ hname') hid
    obtain ⟨id, rfl⟩ := h.symbol_of_means hname
    obtain ⟨id', rfl⟩ := h.symbol_of_means hname'
    cases heq
    rfl
  · rintro rfl
    rw [h.means_unique htext hname hname']

/-- The relations of the model are what the equations of the text say of derivatives. -/
theorem any_relations_eq (hm : m.Assembled) {name : String} {symbol : Expr}
    (hname : m.Means name symbol) :
    m.relations.any (·.derivative.same symbol) = text.derivatives.any (·.1 = name) ∧
      m.relations.any (·.differentiated.same symbol) = text.derivatives.any (·.2 = name) := by
  obtain ⟨g, hg⟩ := hm.nodes
  have hequations : List.Forall₂ (Equation.TranslatesTo m.Means)
      (text.initialEquations ++ text.equations)
      (m.initialEquations.toList ++ m.daeEquations.toList) :=
    List.rel_append h.initialEquations h.equations
  have hrelations : m.relations.toList = (m.initialEquations.toList ++ m.daeEquations.toList).filterMap
      DerivativeRelation.ofEquation? := by
    rw [hm.relations, Array.toList_filterMap, Array.toList_append]
  have hone {eq : Equation} {built : FlatDae.Equation} (heq : eq.TranslatesTo m.Means built) :
      eq.derivative?.any (·.1 = name) =
          (DerivativeRelation.ofEquation? built).any (·.derivative.same symbol) ∧
        eq.derivative?.any (·.2 = name) =
          (DerivativeRelation.ofEquation? built).any (·.differentiated.same symbol) := by
    have hspec := ofEquation?_of_translatesTo heq fun _ _ hmeans => h.symbol_of_means hmeans
    cases hderivative : eq.derivative? with
    | none =>
        rw [hderivative] at hspec
        rw [hspec]
        exact ⟨rfl, rfl⟩
    | some names =>
        rw [hderivative] at hspec
        obtain ⟨r, hr, hd, hx⟩ := hspec
        rw [hr]
        exact ⟨(h.same_eq_decide htext hg hd hname).symm, (h.same_eq_decide htext hg hx hname).symm⟩
  rw [← Array.any_toList, ← Array.any_toList, hrelations]
  exact ⟨(any_filterMap_of_forall₂ hequations fun _ _ heq => (hone heq).1).symm,
    (any_filterMap_of_forall₂ hequations fun _ _ heq => (hone heq).2).symm⟩

omit h htext in
/-- The kind by the words is the one that goes with the variability and the causality that they declare. -/
theorem kindByWords_eq {c : Component} {domain : Domain} {variability : Variability}
    {causality : Causality} (hvariability : c.DeclaresVariability domain variability)
    (hcausality : c.DeclaresCausality causality) :
    text.kindByWords c domain = .declared domain variability causality (c.boundTo?.any (·.mentionsName))
      (text.derivatives.any (·.1 = c.name)) (text.derivatives.any (·.2 = c.name)) := by
  unfold kindByWords VariableKind.declared
  cases variability with
  | constant => rw [if_pos hvariability.1]
  | parameter =>
      rw [if_neg hvariability.2.1, if_pos hvariability.1]
      rfl
  | discrete =>
      rw [if_neg hvariability.1, if_neg hvariability.2.1]
      cases causality with
      | input => exact if_pos hcausality.1
      | output => rw [if_neg hcausality.2, if_pos hvariability.2.2]
      | internal => rw [if_neg hcausality.1, if_pos hvariability.2.2]
  | continuous =>
      obtain ⟨hconstant, hparameter, hdiscrete, rfl⟩ := hvariability
      have hnot : ¬ (.discrete ∈ c.qualifiers ∨ Domain.real ≠ .real) := by simp [hdiscrete]
      rw [if_neg hconstant, if_neg hparameter]
      cases causality with
      | input => exact if_pos hcausality.1
      | output =>
          rw [if_neg hcausality.2, if_neg hnot, if_pos hcausality.1]
          rfl
      | internal =>
          rw [if_neg hcausality.1, if_neg hnot, if_neg hcausality.2]
          rfl

/-- A registered variable has the kind that the text declares for its component. -/
theorem kind_eq (hm : m.Assembled) {c : Component} {v : VarId} (hv : v ∈ m.registered)
    (hc : c.RegisteredAs m v) :
    ∃ kind, (m.store.get v).kind = some kind ∧ text.declaredKind c = some kind := by
  obtain ⟨g, hg⟩ := hm.nodes
  obtain ⟨type, htype, -, hdomain⟩ := hc.type
  obtain ⟨hderivative, hdifferentiated⟩ := h.any_relations_eq htext hm hc.meaning
  refine ⟨_, hm.kinded v hv, ?_⟩
  unfold Model.declaredKind Variable.kindFrom
  rw [h.domainOf?_eq htext htype, Option.map_some, hdomain, kindByWords_eq hc.variability hc.causality,
    h.isDependent_eq hg hv hc, hderivative, hdifferentiated]

/-- The registered variables have the names and the kinds of the components, in the order of the
    text. -/
theorem kinds_eq (hm : m.Assembled) :
    List.Forall₂ (fun c v => (m.store.get v).name = c.name ∧
      ∃ kind, (m.store.get v).kind = some kind ∧ text.declaredKind c = some kind)
      text.components m.registered.toList :=
  forall₂_imp_mem h.components fun _ _ _ hv hc =>
    ⟨hc.name, h.kind_eq htext hm (Array.mem_toList_iff.1 hv) hc⟩

end Model.TranslatesTo

end Source

end FlatDae
