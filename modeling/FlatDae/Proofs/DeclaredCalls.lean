/-
Module: FlatDae.Proofs.DeclaredCalls
Purpose: What becomes of the calls of declared functions. Wherever an expression of a text has got to in
  the model, a call of a declared function is a call of that function there, over what its arguments have
  become and with the output that it selects. A function may be declared under the name of a built-in
  operation; calls under the name are then that operation, and the declared function is never called.
Main exports: Source.Expression.TranslatesTo.exists_node, Source.IsCallOf, Source.IsOperation,
  Source.Model.Becomes, Source.Model.TranslatesTo.exists_becomes, Model.ofText_declaredCalls
-/
import FlatDae.Proofs.AttributeValues
import FlatDae.Proofs.ExpressionPlaces
import FlatDae.Proofs.ModelFidelity

namespace FlatDae

namespace Source

/-! ### Calls and their nodes -/

/-- The node is a call of the function over graphs that say what the arguments say. Without a selection the
    first output is called for. -/
def IsCallOf (function : String) (means : String → Expr → Prop) (args : List Expression)
    (output : Option Nat) (n : Expr) : Prop :=
  ∃ id children, n = .call id function children (output.getD 0) ∧
    List.Forall₂ (Expression.TranslatesTo means) args children

/-- The node is the built-in operation of the name over a graph that says what the one argument says. -/
def IsOperation (function : String) (means : String → Expr → Prop) (args : List Expression)
    (output : Option Nat) (n : Expr) : Prop :=
  ∃ arg child id, args = [arg] ∧ output = none ∧ arg.TranslatesTo means child ∧
    ((function = "der" ∧ n = .der id child) ∨
      ∃ op, UnaryOp.ofName? function = some op ∧ n = .unary id op child)

namespace Expression.TranslatesTo

variable {means : String → Expr → Prop} {e : Expression} {x : Expr}

/-- What an operand has become is below the node, or is the node of a unary plus itself. -/
theorem exists_operand (h : e.TranslatesTo means x) {operand : Expression} (hop : operand ∈ e.operands) :
    ∃ y, y.Within x ∧ operand.TranslatesTo means y := by
  cases h with
  | number | truth | name => cases hop
  | plus start hoperand =>
      obtain rfl := List.mem_singleton.1 hop
      exact ⟨x, .self x, hoperand⟩
  | minus start id hoperand | not start id hoperand =>
      obtain rfl := List.mem_singleton.1 hop
      exact ⟨_, .child List.mem_cons_self, hoperand⟩
  | derivative start id harg | builtin start id hname harg =>
      obtain rfl := List.mem_singleton.1 hop
      exact ⟨_, .child List.mem_cons_self, harg⟩
  | binary start id op hleft hright =>
      rcases List.mem_cons.1 hop with rfl | hop
      · exact ⟨_, .child List.mem_cons_self, hleft⟩
      · obtain rfl := List.mem_singleton.1 hop
        exact ⟨_, .child (List.mem_cons_of_mem _ List.mem_cons_self), hright⟩
  | declared start id hbuiltin hlength hargs =>
      rw [operands, ← List.map_fst_zip (Nat.le_of_eq hlength)] at hop
      obtain ⟨p, hp, rfl⟩ := List.mem_map.1 hop
      exact ⟨p.2, .child (List.of_mem_zip hp).2, hargs hp⟩

/-- Every part of an expression has a node that says what the part says. -/
theorem exists_node {part : Expression} (hin : part.Within e) (h : e.TranslatesTo means x) :
    ∃ n, n.Within x ∧ part.TranslatesTo means n := by
  induction hin generalizing x with
  | self => exact ⟨x, .self x, h⟩
  | deeper hop _ ih =>
      obtain ⟨y, hy, hoperand⟩ := h.exists_operand hop
      obtain ⟨n, hn, hpart⟩ := ih hoperand
      exact ⟨n, hn.trans hy, hpart⟩

section Call

variable {start : Nat} {function : String} {args : List Expression} {output : Option Nat}

/-- A call of what is no built-in operation has become a call. -/
theorem isCallOf (h : (Expression.call start function args output).TranslatesTo means x)
    (hbuiltin : ¬ IsBuiltin function) : IsCallOf function means args output x := by
  cases h with
  | derivative => exact absurd (Or.inl rfl) hbuiltin
  | builtin start id hop => exact absurd (Or.inr (Option.isSome_of_eq_some hop)) hbuiltin
  | declared start id _ hlength hargs =>
      exact ⟨id, _, rfl, List.forall₂_iff_zip.2 ⟨hlength, fun {_ _} hmem => hargs hmem⟩⟩

/-- A call of a built-in operation has become the operation. -/
theorem isOperation (h : (Expression.call start function args output).TranslatesTo means x)
    (hbuiltin : IsBuiltin function) : IsOperation function means args output x := by
  cases h with
  | derivative start id harg => exact ⟨_, _, id, rfl, rfl, harg, Or.inl ⟨rfl, rfl⟩⟩
  | builtin start id hop harg => exact ⟨_, _, id, rfl, rfl, harg, Or.inr ⟨_, hop, rfl⟩⟩
  | declared start id hnot => exact absurd hbuiltin hnot

end Call

/-- No call in a graph is called like a built-in operation. -/
theorem not_isBuiltin_of_within (h : e.TranslatesTo means x)
    (hmeans : ∀ name symbol, means name symbol → ∃ id, symbol = .symbol id name) {id : NodeId}
    {function : String} {children : List Expr} {output : Nat}
    (hin : (Expr.call id function children output).Within x) : ¬ IsBuiltin function := by
  obtain ⟨part, htranslates, hplus, -⟩ := h.hasPart_of_within hmeans hin
  cases htranslates with
  | name start hname =>
      obtain ⟨_, heq⟩ := hmeans _ _ hname
      cases heq
  | plus start hoperand => exact absurd rfl (hplus start _)
  | declared start id hbuiltin => exact hbuiltin

end Expression.TranslatesTo

/-! ### Places of a model -/

/-- The expression is the value of a setting behind which the same attribute is set again. -/
def IsOverridden (settings : List AttributeSetting) (e : Expression) : Prop :=
  ∃ before setting rest, settings = before ++ setting :: rest ∧ setting.value = .expression e ∧
    ∃ later ∈ rest, later.name = setting.name

/-- The name of an attribute that has a value is that of a setting. -/
theorem mem_of_lastValue? {settings : List AttributeSetting} {name : String} {value : AttributeValue}
    (h : lastValue? settings name = some value) : ∃ setting ∈ settings, setting.name = name := by
  induction settings with
  | nil => cases h
  | cons setting settings ih =>
      rw [lastValue?] at h
      cases hlast : lastValue? settings name with
      | some other =>
          obtain ⟨later, hmem, hname⟩ := ih (by rw [hlast] at h; exact hlast.trans h)
          exact ⟨later, List.mem_cons_of_mem _ hmem, hname⟩
      | none =>
          rw [hlast] at h
          by_cases hname : setting.name = name
          · exact ⟨setting, List.mem_cons_self, hname⟩
          · simp [hname] at h

/-- The expression of a setting counts, unless its attribute is set again. -/
theorem isOverridden_or_lastValue? {settings : List AttributeSetting} {e : Expression}
    (he : e ∈ settingExpressions settings) :
    IsOverridden settings e ∨ ∃ name, lastValue? settings name = some (.expression e) := by
  obtain ⟨setting, hmem, hvalue⟩ := List.mem_filterMap.1 he
  have hexpression : setting.value = .expression e := by
    cases hcase : setting.value with
    | text start t => simp [hcase] at hvalue
    | expression e' => simp_all
  obtain ⟨before, rest, rfl⟩ := List.append_of_mem hmem
  cases hlast : lastValue? rest setting.name with
  | some value =>
      obtain ⟨later, hlater, hname⟩ := mem_of_lastValue? hlast
      exact Or.inl ⟨before, setting, rest, rfl, hexpression, later, hlater, hname⟩
  | none =>
      refine Or.inr ⟨setting.name, ?_⟩
      rw [lastValue?_append, lastValue?, hlast, if_pos rfl, hexpression]
      rfl

/-- The binding of a component counts. -/
theorem Component.lastValue?_binding {c : Component} {e : Expression} (h : c.binding = some e) :
    lastValue? c.allSettings Variable.bindingAttribute = some (.expression e) := by
  rw [allSettings, h, lastValue?_append]
  rfl

/-- An attribute that is set to an expression has what the expression says. -/
theorem SetFrom.exists_expr {means : String → Expr → Prop} {defaults : String → Option Attribute}
    {settings : List AttributeSetting} {attributes : Attributes} {name : String} {e : Expression}
    (h : SetFrom means defaults settings attributes)
    (hlast : lastValue? settings name = some (.expression e)) :
    ∃ x, attributes[name]? = some (Attribute.expr x) ∧ e.TranslatesTo means x := by
  have hname := h name
  rw [hlast] at hname
  obtain ⟨stored, hstored, hvalue⟩ := hname
  cases hvalue with
  | expression he => exact ⟨_, hstored, he⟩

theorem SetFrom.translates {means : String → Expr → Prop} {defaults : String → Option Attribute}
    {settings : List AttributeSetting} {attributes : Attributes} {name : String} {e : Expression} {x : Expr}
    (h : SetFrom means defaults settings attributes)
    (hlast : lastValue? settings name = some (.expression e))
    (hx : attributes[name]? = some (Attribute.expr x)) : e.TranslatesTo means x := by
  obtain ⟨y, hy, he⟩ := h.exists_expr hlast
  obtain rfl : y = x := by simpa [hx] using hy.symm
  exact he

namespace Model

/-- The expression stands at a place of the text where names have these meanings, and at the same place of
    the model there is the graph. -/
inductive Becomes (text : Model) (m : FlatDae.Model) :
    Expression → (String → Expr → Prop) → Expr → Prop where
  | lhs {eq : Equation} {built : FlatDae.Equation}
      (h : (eq, built) ∈ text.initialEquations.zip m.initialEquations.toList ∨
        (eq, built) ∈ text.equations.zip m.daeEquations.toList) : Becomes text m eq.lhs m.Means built.lhs
  | rhs {eq : Equation} {built : FlatDae.Equation}
      (h : (eq, built) ∈ text.initialEquations.zip m.initialEquations.toList ∨
        (eq, built) ∈ text.equations.zip m.daeEquations.toList) : Becomes text m eq.rhs m.Means built.rhs
  | output {d : FunctionDeclaration} {f : ModelFunction} {e : Expression} {x : Expr}
      (hd : d ∈ text.functions) (hf : m.functions[d.name]? = some f) (h : (e, x) ∈ d.outputs.zip f.outputs) :
      Becomes text m e (d.Means f) x
  /-- An attribute that the declaration of a type sets, with the last value if there are several. -/
  | ofType {d : TypeDeclaration} {type : VariableType} {name : String} {e : Expression} {x : Expr}
      (hd : d ∈ text.types) (htype : m.types.get? d.name = some type)
      (hlast : lastValue? d.attributes name = some (.expression e))
      (hx : type.attributes[name]? = some (Attribute.expr x)) : Becomes text m e (fun _ _ => False) x
  /-- An attribute of a component, its binding among them. -/
  | own {c : Component} {v : VarId} {name : String} {e : Expression} {x : Expr}
      (hc : (c, v) ∈ text.components.zip m.registered.toList)
      (hlast : lastValue? c.allSettings name = some (.expression e))
      (hx : (m.store.get v).attributes[name]? = some (Attribute.expr x)) : Becomes text m e m.Means x

/-- The expression is that of an attribute which is set again. -/
def Overrides (text : Model) (e : Expression) : Prop :=
  (∃ d ∈ text.types, IsOverridden d.attributes e) ∨ ∃ c ∈ text.components, IsOverridden c.allSettings e

namespace TranslatesTo

variable {text : Model} {m : FlatDae.Model} (h : text.TranslatesTo m)
include h

/-- What stands in the model at the place of an expression says what the expression says. -/
theorem of_becomes {e : Expression} {means : String → Expr → Prop} {x : Expr}
    (hbecomes : text.Becomes m e means x) : e.TranslatesTo means x := by
  have hequation {eq : Equation} {built : FlatDae.Equation}
      (hmem : (eq, built) ∈ text.initialEquations.zip m.initialEquations.toList ∨
        (eq, built) ∈ text.equations.zip m.daeEquations.toList) : eq.TranslatesTo m.Means built := by
    rcases hmem with hmem | hmem
    · exact (List.forall₂_iff_zip.1 h.initialEquations).2 hmem
    · exact (List.forall₂_iff_zip.1 h.equations).2 hmem
  cases hbecomes with
  | lhs hmem => exact (hequation hmem).lhs
  | rhs hmem => exact (hequation hmem).rhs
  | output hd hf hmem =>
      obtain ⟨f, hf', htranslates⟩ := h.functions _ hd
      obtain rfl := Option.some.inj (hf'.symm.trans hf)
      exact (List.forall₂_iff_zip.1 htranslates.outputs).2 hmem
  | ofType hd htype hlast hx =>
      obtain ⟨type, htype', htranslates⟩ := h.types _ hd
      obtain rfl := Option.some.inj (htype'.symm.trans htype)
      exact htranslates.attributes.translates hlast hx
  | own hc hlast hx =>
      exact ((List.forall₂_iff_zip.1 h.components).2 hc).attributes.translates hlast hx

/-- Names stand for symbols at every place. -/
theorem symbol_of_becomes {e : Expression} {means : String → Expr → Prop} {x : Expr}
    (hbecomes : text.Becomes m e means x) (name : String) (symbol : Expr) (hmeans : means name symbol) :
    ∃ id, symbol = .symbol id name := by
  cases hbecomes with
  | lhs | rhs | own => exact h.symbol_of_means hmeans
  | output hd hf _ =>
      obtain ⟨f, hf', htranslates⟩ := h.functions _ hd
      obtain rfl := Option.some.inj (hf'.symm.trans hf)
      exact (List.forall₂_iff_zip.1 htranslates.inputs).2 hmeans
  | ofType => exact hmeans.elim

/-- Every expression of the text has its place in the model, unless its attribute is set again. -/
theorem exists_becomes {e : Expression} (he : e ∈ text.expressions) :
    text.Overrides e ∨ ∃ means x, text.Becomes m e means x := by
  simp only [Model.expressions, List.mem_append, List.mem_flatMap, List.mem_cons, List.not_mem_nil,
    or_false] at he
  rcases he with ((⟨d, hd, he⟩ | ⟨d, hd, he⟩) | ⟨c, hc, he⟩) | ⟨eq, heq, he⟩
  · rcases isOverridden_or_lastValue? he with hoverridden | ⟨name, hlast⟩
    · exact Or.inl (Or.inl ⟨d, hd, hoverridden⟩)
    · obtain ⟨type, htype, htranslates⟩ := h.types d hd
      obtain ⟨x, hx, -⟩ := htranslates.attributes.exists_expr hlast
      exact Or.inr ⟨_, x, .ofType hd htype hlast hx⟩
  · obtain ⟨f, hf, htranslates⟩ := h.functions d hd
    obtain ⟨x, hx⟩ := exists_mem_zip_of_forall₂ htranslates.outputs he
    exact Or.inr ⟨_, x, .output hd hf hx⟩
  · have hall : e ∈ settingExpressions c.allSettings := by
      rw [Component.allSettings, settingExpressions, List.filterMap_append, List.mem_append]
      refine he.imp_right fun hbinding => ?_
      cases hcase : c.binding with
      | none => simp [hcase] at hbinding
      | some binding => simp_all
    rcases isOverridden_or_lastValue? hall with hoverridden | ⟨name, hlast⟩
    · exact Or.inl (Or.inr ⟨c, hc, hoverridden⟩)
    · obtain ⟨v, hv⟩ := exists_mem_zip_of_forall₂ h.components hc
      obtain ⟨x, hx, -⟩ := ((List.forall₂_iff_zip.1 h.components).2 hv).attributes.exists_expr hlast
      exact Or.inr ⟨_, x, .own hv hlast hx⟩
  · have hplace : ∃ built, (eq, built) ∈ text.initialEquations.zip m.initialEquations.toList ∨
        (eq, built) ∈ text.equations.zip m.daeEquations.toList := by
      rcases heq with heq | heq
      · obtain ⟨built, hbuilt⟩ := exists_mem_zip_of_forall₂ h.initialEquations heq
        exact ⟨built, Or.inl hbuilt⟩
      · obtain ⟨built, hbuilt⟩ := exists_mem_zip_of_forall₂ h.equations heq
        exact ⟨built, Or.inr hbuilt⟩
    obtain ⟨built, hbuilt⟩ := hplace
    rcases he with rfl | rfl
    · exact Or.inr ⟨_, _, .lhs hbuilt⟩
    · exact Or.inr ⟨_, _, .rhs hbuilt⟩

end TranslatesTo

end Model

end Source

namespace Model

open Source (Expression IsBuiltin IsCallOf IsOperation)

/-- In the model of a text every call of a declared function is a call of that function, at every place
    where an expression of the text stands. If the function is called like a built-in operation, though,
    such a call is the operation, and no call of the function stands at any place. -/
theorem ofText_declaredCalls {s : String} {m : Model} (h : Model.ofText s = .ok m) :
    ∃ text, Source.parse s = .ok text ∧
      (∀ d ∈ text.functions, ∃ f, m.functions[d.name]? = some f ∧ d.TranslatesTo f) ∧
      (∀ e ∈ text.expressions, text.Overrides e ∨ ∃ means x, text.Becomes m e means x) ∧
      ∀ e means x, text.Becomes m e means x → ∀ d ∈ text.functions,
        (¬ IsBuiltin d.name → ∀ start args output, (Expression.call start d.name args output).Within e →
          ∃ n, n.Within x ∧ IsCallOf d.name means args output n) ∧
        (IsBuiltin d.name → (∀ id children output, ¬ (Expr.call id d.name children output).Within x) ∧
          ∀ start args output, (Expression.call start d.name args output).Within e →
            ∃ n, n.Within x ∧ IsOperation d.name means args output n) := by
  obtain ⟨text, hparse, -, htranslates, -⟩ := Model.ofText_eq_ok h
  refine ⟨text, hparse, htranslates.functions, fun e he => htranslates.exists_becomes he, ?_⟩
  intro e means x hbecomes d _
  have he := htranslates.of_becomes hbecomes
  have hnode {start : Nat} {args : List Expression} {output : Option Nat}
      (hin : (Expression.call start d.name args output).Within e) :
      ∃ n, n.Within x ∧ (Expression.call start d.name args output).TranslatesTo means n :=
    he.exists_node hin
  refine ⟨fun hbuiltin start args output hin => ?_, fun hbuiltin => ⟨?_, fun start args output hin => ?_⟩⟩
  · obtain ⟨n, hn, hcall⟩ := hnode hin
    exact ⟨n, hn, hcall.isCallOf hbuiltin⟩
  · intro id children output hin
    exact he.not_isBuiltin_of_within (htranslates.symbol_of_becomes hbecomes) hin hbuiltin
  · obtain ⟨n, hn, hcall⟩ := hnode hin
    exact ⟨n, hn, hcall.isOperation hbuiltin⟩

/-- Calls with and without a selected output, one as an argument of the other. -/
def nestedCallText : String :=
  "model A function f(x) = (x + 1, x * 2); Real y; equation y = f(f(y))\x7b1\x7d; end A;"

set_option maxRecDepth 100000 in
theorem nestedCallText_isOk : (Model.ofText nestedCallText).isOk = true := by decide +kernel

theorem ofText_declaredCalls_nestedCallText : ∃ m, Model.ofText nestedCallText = .ok m ∧
    ∃ text, Source.parse nestedCallText = .ok text ∧ ∀ e means x, text.Becomes m e means x →
      ∀ d ∈ text.functions, ¬ IsBuiltin d.name → ∀ start args output,
        (Expression.call start d.name args output).Within e →
          ∃ n, n.Within x ∧ IsCallOf d.name means args output n := by
  obtain ⟨m, hm⟩ := exists_ofText_of_isOk nestedCallText_isOk
  obtain ⟨text, hparse, -, -, hcalls⟩ := ofText_declaredCalls hm
  exact ⟨m, hm, text, hparse, fun e means x hbecomes d hd => (hcalls e means x hbecomes d hd).1⟩

/-- A function that is declared as the sine, and a call under that name. -/
def declaredSineText : String :=
  "model A function sin(x) = (x + 1); parameter Real p = sin(0); end A;"

set_option maxRecDepth 100000 in
/-- The text is accepted, it declares the function, and the parameter is bound to a call of it. -/
theorem declaredSineText_isOk : (Model.ofText declaredSineText).isOk = true ∧
    (Source.parse declaredSineText).toOption.map (fun text =>
      (text.functions.map (·.name), text.components.map fun c =>
        match c.binding with
        | some (.call _ function _ _) => some function
        | _ => none)) = some (["sin"], [some "sin"]) := by
  decide +kernel

/-- Not every call of a declared function becomes a call of it. -/
theorem ofText_declaredCalls_declaredSineText :
    ¬ ∀ s m, Model.ofText s = .ok m → ∃ text, Source.parse s = .ok text ∧
      ∀ e means x, text.Becomes m e means x → ∀ d ∈ text.functions, ∀ start args output,
        (Expression.call start d.name args output).Within e →
          ∃ n, n.Within x ∧ IsCallOf d.name means args output n := by
  intro hall
  obtain ⟨hok, hshape⟩ := declaredSineText_isOk
  obtain ⟨m, hm⟩ := exists_ofText_of_isOk hok
  obtain ⟨text, hparse, hcalls⟩ := hall declaredSineText m hm
  obtain ⟨text', hparse', -, htranslates, -⟩ := Model.ofText_eq_ok hm
  obtain rfl := Except.ok.inj (hparse'.symm.trans hparse)
  rw [hparse] at hshape
  obtain ⟨hnames, hbindings⟩ := Prod.mk.inj (Option.some.inj hshape)
  obtain ⟨d, hd, hname⟩ : ∃ d ∈ text'.functions, d.name = "sin" :=
    List.mem_map.1 (hnames ▸ List.mem_cons_self)
  obtain ⟨c, hc, hbinding⟩ := List.mem_map.1 (hbindings ▸ List.mem_cons_self : some "sin" ∈ _)
  split at hbinding
  case h_2 => cases hbinding
  case h_1 start function args output hcall =>
    obtain rfl := Option.some.inj hbinding
    have hlast := Source.Component.lastValue?_binding hcall
    obtain ⟨v, hv⟩ := exists_mem_zip_of_forall₂ htranslates.components hc
    obtain ⟨x, hx, he⟩ :=
      ((List.forall₂_iff_zip.1 htranslates.components).2 hv).attributes.exists_expr hlast
    obtain ⟨n, hn, id, children, rfl, -⟩ :=
      hcalls _ _ x (.own hv hlast hx) d hd start args output (hname ▸ .self _)
    have hbuiltin : IsBuiltin d.name := hname ▸ Or.inr rfl
    exact he.not_isBuiltin_of_within (fun _ _ => htranslates.symbol_of_means) hn hbuiltin

end Model

end FlatDae
