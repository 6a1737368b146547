/-
Module: FlatDae.Proofs.ExpressionTranslation
Purpose: Which expression graphs say what an expression of a text says. The relation follows the syntax
  and leaves to a scope what names stand for; it does not mention how graphs are built. Building a well
  formed expression gives a graph that stands in the relation to it, with the symbols of the scope
  themselves for its names. Of the attributes that are set under one name the last one counts.
Main exports: Source.Expression.TranslatesTo, Source.SetFrom, elaborateExpression_translates,
  elaborateInTurn_translates, elaborateAttributes_translates, setFrom_storeAll
-/
import FlatDae.Proofs.ExpressionElaboration
import FlatDae.Proofs.GraphGrowth
import Mathlib.Data.List.Forall2

namespace FlatDae

open FlatDae.Expr (Graph)

namespace Source

/-! ### Expressions -/

/-- The graph says what the expression says, names standing for what they mean. A unary plus leaves no
    node behind, and a call without an output index is one of the first output. -/
inductive Expression.TranslatesTo (means : String → Expr → Prop) : Expression → Expr → Prop where
  | number (start : Nat) (id : NodeId) (value : Float) :
      TranslatesTo means (.number start value) (.constant id value)
  | truth (start : Nat) (id : NodeId) (value : Bool) :
      TranslatesTo means (.truth start value) (.constant id (truthValue value))
  | name (start : Nat) {name : String} {symbol : Expr} (hname : means name symbol) :
      TranslatesTo means (.name start name) symbol
  | minus (start : Nat) (id : NodeId) {operand : Expression} {child : Expr}
      (hoperand : TranslatesTo means operand child) :
      TranslatesTo means (.signed start .minus operand) (.unary id .negate child)
  | plus (start : Nat) {operand : Expression} {child : Expr}
      (hoperand : TranslatesTo means operand child) :
      TranslatesTo means (.signed start .plus operand) child
  | not (start : Nat) (id : NodeId) {operand : Expression} {child : Expr}
      (hoperand : TranslatesTo means operand child) :
      TranslatesTo means (.signed start .not operand) (.unary id .not child)
  | binary (start : Nat) (id : NodeId) (op : BinaryOp) {left right : Expression} {x y : Expr}
      (hleft : TranslatesTo means left x) (hright : TranslatesTo means right y) :
      TranslatesTo means (.binary start op left right) (.binary id op x y)
  | derivative (start : Nat) (id : NodeId) {arg : Expression} {child : Expr}
      (harg : TranslatesTo means arg child) :
      TranslatesTo means (.call start "der" [arg] none) (.der id child)
  | builtin (start : Nat) (id : NodeId) {function : String} {op : UnaryOp} {arg : Expression}
      {child : Expr} (hop : UnaryOp.ofName? function = some op)
      (harg : TranslatesTo means arg child) :
      TranslatesTo means (.call start function [arg] none) (.unary id op child)
  | declared (start : Nat) (id : NodeId) {function : String} {args : List Expression}
      {children : List Expr} {output : Option Nat} (hbuiltin : ¬ IsBuiltin function)
      (hlength : args.length = children.length)
      (hargs : ∀ {arg child}, (arg, child) ∈ args.zip children → TranslatesTo means arg child) :
      TranslatesTo means (.call start function args output)
        (.call id function children (output.getD 0))

namespace Expression.TranslatesTo

variable {means means' : String → Expr → Prop} {e : Expression} {x : Expr}

/-- A name may mean more. -/
theorem mono (h : e.TranslatesTo means x) (hmeans : ∀ name symbol, means name symbol → means' name symbol) :
    e.TranslatesTo means' x := by
  induction h with
  | number start id value => exact .number start id value
  | truth start id value => exact .truth start id value
  | name start hname => exact .name start (hmeans _ _ hname)
  | minus start id _ ih => exact .minus start id ih
  | plus start _ ih => exact .plus start ih
  | not start id _ ih => exact .not start id ih
  | binary start id op _ _ ihleft ihright => exact .binary start id op ihleft ihright
  | derivative start id _ ih => exact .derivative start id ih
  | builtin start id hop _ ih => exact .builtin start id hop ih
  | declared start id hbuiltin hlength _ ih => exact .declared start id hbuiltin hlength ih

/-- Arguments that translate one by one. -/
theorem call {function : String} {args : List Expression} {children : List Expr} (start : Nat)
    (id : NodeId) (output : Option Nat) (hbuiltin : ¬ IsBuiltin function)
    (hargs : List.Forall₂ (TranslatesTo means) args children) :
    (Expression.call start function args output).TranslatesTo means
      (.call id function children (output.getD 0)) :=
  .declared start id hbuiltin hargs.length_eq (List.forall₂_iff_zip.1 hargs).2

/-- The node says what a part of the expression says, which is no unary plus and is well formed if the
    expression is. -/
def HasPart (means : String → Expr → Prop) (e : Expression) (n : Expr) : Prop :=
  ∃ part : Expression, part.TranslatesTo means n ∧ (∀ start operand, part ≠ .signed start .plus operand) ∧
    ∀ declares known, e.WellFormed declares known → part.WellFormed declares known

/-- An expression that is no unary plus is a part of itself. -/
theorem hasPart_self {n : Expr} (h : e.TranslatesTo means n)
    (hplus : ∀ start operand, e ≠ .signed start .plus operand) : HasPart means e n :=
  ⟨e, h, hplus, fun _ _ hwf => hwf⟩

theorem HasPart.of_operand {operand : Expression} {n : Expr} (h : HasPart means operand n)
    (hwf : ∀ {declares known}, e.WellFormed declares known → operand.WellFormed declares known) :
    HasPart means e n := by
  obtain ⟨part, htranslates, hplus, hpart⟩ := h
  exact ⟨part, htranslates, hplus, fun _ _ he => hpart _ _ (hwf he)⟩

/-- Every node of the graph says what a part of the expression says. -/
theorem hasPart_of_within (h : e.TranslatesTo means x)
    (hmeans : ∀ name symbol, means name symbol → ∃ id, symbol = .symbol id name) {n : Expr}
    (hwithin : Expr.Within n x) : HasPart means e n := by
  induction h with
  | number start id value =>
      cases hwithin with
      | self => exact hasPart_self (.number start id value) fun _ _ => nofun
      | deeper hc => cases hc
  | truth start id value =>
      cases hwithin with
      | self => exact hasPart_self (.truth start id value) fun _ _ => nofun
      | deeper hc => cases hc
  | name start hname =>
      obtain ⟨id, rfl⟩ := hmeans _ _ hname
      cases hwithin with
      | self => exact hasPart_self (.name start hname) fun _ _ => nofun
      | deeper hc => cases hc
  | plus start _ ih => exact (ih hwithin).of_operand wellFormed_signed_iff.1
  | minus start id hoperand ih =>
      cases hwithin with
      | self => exact hasPart_self (.minus start id hoperand) fun _ _ => nofun
      | deeper hc hn =>
          obtain rfl := List.mem_singleton.1 hc
          exact (ih hn).of_operand wellFormed_signed_iff.1
  | not start id hoperand ih =>
      cases hwithin with
      | self => exact hasPart_self (.not start id hoperand) fun _ _ => nofun
      | deeper hc hn =>
          obtain rfl := List.mem_singleton.1 hc
          exact (ih hn).of_operand wellFormed_signed_iff.1
  | binary start id op hleft hright ihleft ihright =>
      cases hwithin with
      | self => exact hasPart_self (.binary start id op hleft hright) fun _ _ => nofun
      | deeper hc hn =>
          rcases List.mem_cons.1 hc with rfl | hc
          · exact (ihleft hn).of_operand fun hwf => (wellFormed_binary_iff.1 hwf).1
          · obtain rfl := List.mem_singleton.1 hc
            exact (ihright hn).of_operand fun hwf => (wellFormed_binary_iff.1 hwf).2
  | derivative start id harg ih =>
      cases hwithin with
      | self => exact hasPart_self (.derivative start id harg) fun _ _ => nofun
      | deeper hc hn =>
          obtain rfl := List.mem_singleton.1 hc
          exact (ih hn).of_operand fun hwf => (wellFormed_call_iff.1 hwf).1 _ List.mem_cons_self
  | builtin start id hop harg ih =>
      cases hwithin with
      | self => exact hasPart_self (.builtin start id hop harg) fun _ _ => nofun
      | deeper hc hn =>
          obtain rfl := List.mem_singleton.1 hc
          exact (ih hn).of_operand fun hwf => (wellFormed_call_iff.1 hwf).1 _ List.mem_cons_self
  | declared start id hbuiltin hlength hargs ih =>
      cases hwithin with
      | self => exact hasPart_self (.declared start id hbuiltin hlength hargs) fun _ _ => nofun
      | deeper hc hn =>
          rw [Expr.children, ← List.map_snd_zip (Nat.le_of_eq hlength.symm)] at hc
          obtain ⟨p, hp, rfl⟩ := List.mem_map.1 hc
          exact (ih hp hn).of_operand fun hwf =>
            (wellFormed_call_iff.1 hwf).1 _ (List.of_mem_zip hp).1

/-- The symbols of the graph are those that names stand for. -/
theorem means_of_within (h : e.TranslatesTo means x)
    (hmeans : ∀ name symbol, means name symbol → ∃ id, symbol = .symbol id name) {id : NodeId}
    {name : String} (hwithin : Expr.Within (.symbol id name) x) : means name (.symbol id name) := by
  obtain ⟨part, htranslates, hplus, -⟩ := h.hasPart_of_within hmeans hwithin
  cases htranslates with
  | @name _ other _ hname =>
      obtain ⟨id', heq⟩ := hmeans _ _ hname
      cases heq
      exact hname
  | plus start hoperand => exact absurd rfl (hplus start _)

end Expression.TranslatesTo

/-! ### Attributes -/

/-- The attribute is the text, or says what the expression says. -/
inductive AttributeValue.TranslatesTo (means : String → Expr → Prop) :
    AttributeValue → Attribute → Prop where
  | text (start : Nat) (s : String) : TranslatesTo means (.text start s) (.text s)
  | expression {e : Expression} {x : Expr} (he : e.TranslatesTo means x) :
      TranslatesTo means (.expression e) (.expr x)

/-- The value that a name is set to, the last one if there are several. -/
def lastValue? : List AttributeSetting → String → Option AttributeValue
  | [], _ => none
  | setting :: settings, name =>
    lastValue? settings name <|> if setting.name = name then some setting.value else none

/-- The attributes are as they are set, and otherwise the default ones. -/
def SetFrom (means : String → Expr → Prop) (defaults : String → Option Attribute)
    (settings : List AttributeSetting) (attributes : Attributes) : Prop :=
  ∀ name, match lastValue? settings name with
    | some value => ∃ stored, attributes[name]? = some stored ∧ value.TranslatesTo means stored
    | none => attributes[name]? = defaults name

/-- A name with the value that a setting gives it. -/
def AttributeSetting.TranslatesTo (means : String → Expr → Prop) (setting : AttributeSetting)
    (named : String × Attribute) : Prop :=
  named.1 = setting.name ∧ setting.value.TranslatesTo means named.2

section Storing

variable {α : Type}

/-- Values stored one after the other under their names. -/
def storeAll (table : Std.TreeMap String α) (values : List (String × α)) : Std.TreeMap String α :=
  values.foldl (fun table (name, value) => table.insert name value) table

theorem storeAll_cons (table : Std.TreeMap String α) (value : String × α)
    (values : List (String × α)) :
    storeAll table (value :: values) = storeAll (table.insert value.1 value.2) values :=
  rfl

theorem storeAll_append (table : Std.TreeMap String α) (values more : List (String × α)) :
    storeAll table (values ++ more) = storeAll (storeAll table values) more :=
  List.foldl_append

/-- A table of values is what storing them in an empty one gives. -/
theorem ofList_eq_storeAll (values : List (String × α)) :
    Std.TreeMap.ofList values = storeAll ∅ values := by
  have hinsert (table : Std.TreeMap String α) : table.insertMany values = storeAll table values := by
    induction values generalizing table with
    | nil => exact Std.TreeMap.insertMany_nil
    | cons value values ih => rw [Std.TreeMap.insertMany_cons, ih, storeAll_cons]
  rw [← hinsert, Std.TreeMap.ofList_eq_insertMany_empty]

/-- Storing values leaves nothing there that was not there or is stored. -/
theorem mem_of_storeAll {values : List (String × α)} {table : Std.TreeMap String α} {name : String}
    {a : α} (h : (storeAll table values)[name]? = some a) :
    table[name]? = some a ∨ (name, a) ∈ values := by
  induction values generalizing table with
  | nil => exact Or.inl h
  | cons value values ih =>
      rcases ih (storeAll_cons table value values ▸ h) with hold | hmem
      · rw [Std.TreeMap.getElem?_insert] at hold
        by_cases hname : value.1 = name
        · simp only [hname, Std.ReflCmp.compare_self, if_true, Option.some.injEq] at hold
          exact Or.inr (List.mem_cons.2 (Or.inl (Prod.ext hname.symm hold.symm)))
        · simp only [Std.LawfulEqCmp.compare_eq_iff_eq, hname, if_false] at hold
          exact Or.inl hold
      · exact Or.inr (List.mem_cons_of_mem value hmem)

/-- A table of values has nothing but these. -/
theorem mem_of_ofList {values : List (String × α)} {name : String} {a : α}
    (h : (Std.TreeMap.ofList values)[name]? = some a) : (name, a) ∈ values := by
  rw [ofList_eq_storeAll] at h
  rcases mem_of_storeAll h with hnone | hmem
  · simp at hnone
  · exact hmem

end Storing

/-- Values stored over others are those that are set. -/
theorem setFrom_storeAll {means : String → Expr → Prop} {settings : List AttributeSetting}
    {values : List (String × Attribute)}
    (h : List.Forall₂ (AttributeSetting.TranslatesTo means) settings values) (attributes : Attributes) :
    SetFrom means (fun name => attributes[name]?) settings (storeAll attributes values) := by
  induction h generalizing attributes with
  | nil => exact fun _ => rfl
  | @cons setting named settings values hsetting _ ih =>
      intro name
      have hrest := ih (attributes.insert named.1 named.2) name
      rw [← storeAll_cons] at hrest
      rw [lastValue?]
      cases hlast : lastValue? settings name with
      | some value =>
          rw [hlast] at hrest
          exact hrest
      | none =>
          rw [hlast] at hrest
          simp only [Std.TreeMap.getElem?_insert, hsetting.1] at hrest
          by_cases hname : setting.name = name
          · simp only [hname, Std.ReflCmp.compare_self, if_true] at hrest
            simp only [hname, if_true]
            exact ⟨named.2, hrest, hsetting.2⟩
          · simp only [Std.LawfulEqCmp.compare_eq_iff_eq, hname, if_false] at hrest
            simp only [hname, if_false]
            exact hrest

end Source

/-! ### Building expressions -/

namespace Elaboration

open Source (settingExpressions)

/-- What names stand for in a scope. -/
def Scope.Means (scope : Scope) (name : String) (symbol : Expr) : Prop := scope.find? name = some symbol

/-- The symbols of a scope are nodes of the graph. -/
def Scope.DrawnFrom (scope : Scope) (g : Graph) : Prop :=
  ∀ name symbol, scope.Means name symbol → symbol ∈ g

theorem Scope.DrawnFrom.mono {scope : Scope} {g g' : Graph} (h : scope.DrawnFrom g) (hle : g ≤ g') :
    scope.DrawnFrom g' := fun name symbol hmeans => hle symbol (h name symbol hmeans)

/-- There is a graph that says what the expression says. -/
def Translated (scope : Scope) (e : Source.Expression) (g : Graph) (built : Option Expr) : Prop :=
  ∃ x ∈ g, built = some x ∧ e.TranslatesTo scope.Means x

/-- There is a graph for each of the expressions. -/
def TranslatedAll (scope : Scope) (es : List Source.Expression) (g : Graph) (xs : List Expr) : Prop :=
  (∀ x ∈ xs, x ∈ g) ∧ List.Forall₂ (Source.Expression.TranslatesTo scope.Means) es xs

section Building

variable {signatures : Signatures} {scope : Scope} {g : Graph}

/-- A node is made over nodes that translate parts. -/
theorem makes_translated {e : Source.Expression} {build : NodeId → Expr}
    (hid : ∀ id, (build id).id = id) (hchildren : ∀ id, ∀ c ∈ (build id).children, c ∈ g)
    (he : ∀ id, e.TranslatesTo scope.Means (build id)) :
    Makes g (do return some (← make (do return build (← Fresh.nodeId))))
      (Translated scope e) := by
  apply Makes.bind (Makes.make (Makes.node hid hchildren))
  rintro g' x - ⟨⟨id, rfl⟩, hmem, -⟩
  exact Makes.pure ⟨_, hmem, rfl, he id⟩

theorem TranslatedAll.cons {e : Source.Expression} {es : List Source.Expression} {x : Expr}
    {xs : List Expr} {g' : Graph} (hx : x ∈ g) (he : e.TranslatesTo scope.Means x) (hle : g ≤ g')
    (h : TranslatedAll scope es g' xs) : TranslatedAll scope (e :: es) g' (x :: xs) :=
  ⟨List.forall_mem_cons.2 ⟨hle x hx, h.1⟩, .cons he h.2⟩

/-- A call over arguments that are built. -/
theorem elaborateCall_translates (start : Nat) {function : String} {args : List Source.Expression}
    {output : Option Nat} {children : List Expr}
    (hfits : Source.Expression.CallFits signatures.Declares function args.length output)
    (hargs : TranslatedAll scope args g children) :
    Makes g (elaborateCall signatures start function children output)
      (Translated scope (.call start function args output)) := by
  unfold elaborateCall
  rcases hfits with ⟨hbuiltin, hlength, rfl⟩ | ⟨hbuiltin, outputs, hdeclares, houtput⟩
  · obtain ⟨arg, rfl⟩ := List.length_eq_one_iff.1 hlength
    obtain ⟨child, rest, harg, hrest, rfl⟩ := List.forall₂_cons_left_iff.1 hargs.2
    obtain rfl := List.forall₂_nil_left_iff.1 hrest
    have hchild : ∀ c ∈ [child], c ∈ g := hargs.1
    have htest : ((UnaryOp.ofName? function).isSome || function == "der") = true := by
      rw [Bool.or_eq_true, beq_iff_eq]
      exact hbuiltin.symm
    rw [if_pos htest]
    cases hop : UnaryOp.ofName? function with
    | some op => exact makes_translated (fun _ => rfl) (fun _ => hchild) fun id => .builtin start id hop harg
    | none =>
        have hder : function = "der" := by simpa [hop] using htest
        subst hder
        exact makes_translated (fun _ => rfl) (fun _ => hchild) fun id => .derivative start id harg
  · have htest : ¬ ((UnaryOp.ofName? function).isSome || function == "der") = true := by
      rw [Bool.or_eq_true, beq_iff_eq]
      exact fun h => hbuiltin h.symm
    have hsignature : signatures[function]? = some ⟨args.length, outputs⟩ := hdeclares
    have hlength : (children.length != args.length) = false := by simpa using hargs.2.length_eq.symm
    simp only [if_neg htest, hsignature, hlength, Nat.not_le.2 houtput, if_false, Bool.false_eq_true]
    exact makes_translated (fun _ => rfl) (fun _ => hargs.1) fun id =>
      .call start id output hbuiltin hargs.2

mutual

/-- A well formed expression is built to a graph that says what it says. -/
theorem elaborateExpression_translates (signatures : Signatures) (scope : Scope) :
    ∀ (e : Source.Expression) (g : Graph), scope.DrawnFrom g →
      e.WellFormed signatures.Declares scope.Known →
      Makes g (elaborateExpression signatures scope e) (Translated scope e)
  | .number start value, g, _, _ => by
      rw [elaborateExpression]
      exact makes_translated (fun _ => rfl) (fun _ _ hc => nomatch hc) fun id => .number start id value
  | .truth start value, g, _, _ => by
      rw [elaborateExpression]
      exact makes_translated (fun _ => rfl) (fun _ _ hc => nomatch hc) fun id => .truth start id value
  | .name start name, g, hscope, he => by
      obtain ⟨symbol, hfind⟩ := Option.isSome_iff_exists.1 (Source.Expression.wellFormed_name_iff.1 he)
      rw [elaborateExpression, lookUp, hfind]
      exact Makes.pure ⟨symbol, hscope name symbol hfind, rfl, .name start hfind⟩
  | .signed start sign operand, g, hscope, he => by
      rw [elaborateExpression]
      apply Makes.bind (elaborateExpression_translates signatures scope operand g hscope
        (Source.Expression.wellFormed_signed_iff.1 he))
      rintro g' _ - ⟨child, hchild, rfl, hoperand⟩
      have hchildren : ∀ c ∈ [child], c ∈ g' := by simpa using hchild
      cases sign with
      | minus => exact makes_translated (fun _ => rfl) (fun _ => hchildren) fun id => .minus start id hoperand
      | plus => exact Makes.pure ⟨child, hchild, rfl, .plus start hoperand⟩
      | not => exact makes_translated (fun _ => rfl) (fun _ => hchildren) fun id => .not start id hoperand
  | .binary start op left right, g, hscope, he => by
      obtain ⟨hleft, hright⟩ := Source.Expression.wellFormed_binary_iff.1 he
      rw [elaborateExpression]
      apply Makes.bind (elaborateExpression_translates signatures scope left g hscope hleft)
      rintro g₁ _ hle₁ ⟨x, hx, rfl, htranslates⟩
      apply Makes.bind
        (elaborateExpression_translates signatures scope right g₁ (hscope.mono hle₁) hright)
      rintro g₂ _ hle₂ ⟨y, hy, rfl, htranslates'⟩
      have hchildren : ∀ c ∈ [x, y], c ∈ g₂ := by simpa using ⟨hle₂ x hx, hy⟩
      exact makes_translated (fun _ => rfl) (fun _ => hchildren) fun id =>
        .binary start id op htranslates htranslates'
  | .call start function args output, g, hscope, he => by
      obtain ⟨hargs, hfits⟩ := Source.Expression.wellFormed_call_iff.1 he
      rw [elaborateExpression]
      apply Makes.bind (elaborateAll_translates signatures scope args g hscope hargs)
      rintro g' built - ⟨children, hpresent, htranslated⟩
      rw [hpresent]
      exact elaborateCall_translates start hfits htranslated

/-- Well formed expressions are built one after the other. -/
theorem elaborateAll_translates (signatures : Signatures) (scope : Scope) :
    ∀ (es : List Source.Expression) (g : Graph), scope.DrawnFrom g →
      (∀ e ∈ es, e.WellFormed signatures.Declares scope.Known) →
      Makes g (elaborateAll signatures scope es)
        fun g' built => ∃ xs, allPresent built = some xs ∧ TranslatedAll scope es g' xs
  | [], g, _, _ => by
      rw [elaborateAll]
      exact Makes.pure ⟨[], rfl, fun _ hx => absurd hx List.not_mem_nil, .nil⟩
  | e :: es, g, hscope, hes => by
      obtain ⟨he, hrest⟩ := List.forall_mem_cons.1 hes
      rw [elaborateAll]
      apply Makes.bind (elaborateExpression_translates signatures scope e g hscope he)
      rintro g₁ _ hle₁ ⟨x, hx, rfl, htranslates⟩
      apply Makes.bind (elaborateAll_translates signatures scope es g₁ (hscope.mono hle₁) hrest)
      rintro g₂ built hle₂ ⟨xs, hpresent, htranslated⟩
      exact Makes.pure ⟨x :: xs, by rw [allPresent, hpresent]; rfl, .cons hx htranslates hle₂ htranslated⟩

end

/-- Well formed expressions are built in turn. -/
theorem elaborateInTurn_translates {es : List Source.Expression} (hscope : scope.DrawnFrom g)
    (hes : ∀ e ∈ es, e.WellFormed signatures.Declares scope.Known) :
    Makes g (elaborateInTurn signatures scope es)
      fun g' built => ∃ xs, built = some xs ∧ TranslatedAll scope es g' xs := by
  induction es generalizing g with
  | nil =>
      rw [elaborateInTurn]
      exact Makes.pure ⟨[], rfl, fun _ hx => absurd hx List.not_mem_nil, .nil⟩
  | cons e es ih =>
      obtain ⟨he, hrest⟩ := List.forall_mem_cons.1 hes
      rw [elaborateInTurn]
      apply Makes.bind (elaborateExpression_translates signatures scope e g hscope he)
      rintro g₁ _ hle₁ ⟨x, hx, rfl, htranslates⟩
      apply Makes.bind (ih (hscope.mono hle₁) hrest)
      rintro g₂ _ hle₂ ⟨xs, rfl, htranslated⟩
      exact Makes.pure ⟨x :: xs, rfl, .cons hx htranslates hle₂ htranslated⟩

/-! ### Building attributes -/

/-- There is a value for each of the settings. -/
structure TranslatedSettings (scope : Scope) (settings : List Source.AttributeSetting) (g : Graph)
    (values : List (String × Attribute)) : Prop where
  drawnFrom : ∀ value ∈ values, ∀ x, value.2 = .expr x → x ∈ g
  translates : List.Forall₂ (Source.AttributeSetting.TranslatesTo scope.Means) settings values

theorem elaborateAttribute_translates {value : Source.AttributeValue} (hscope : scope.DrawnFrom g)
    (hvalue : ∀ e, value = .expression e → e.WellFormed signatures.Declares scope.Known) :
    Makes g (elaborateAttribute signatures scope value) fun g' built =>
      ∃ stored, built = some stored ∧ value.TranslatesTo scope.Means stored ∧
        ∀ x, stored = .expr x → x ∈ g' := by
  cases value with
  | text start s =>
      rw [elaborateAttribute]
      refine Makes.pure ⟨.text s, rfl, .text start s, ?_⟩
      intro x hx
      cases hx
  | expression e =>
      rw [elaborateAttribute]
      apply Makes.bind (elaborateExpression_translates signatures scope e g hscope (hvalue e rfl))
      rintro g' _ - ⟨x, hx, rfl, he⟩
      refine Makes.pure ⟨.expr x, rfl, .expression he, ?_⟩
      intro x' heq
      rwa [← Attribute.expr.inj heq]

/-- The values of well formed settings are built in order. -/
theorem elaborateAttributes_translates {settings : List Source.AttributeSetting}
    (hscope : scope.DrawnFrom g)
    (hsettings : ∀ e ∈ settingExpressions settings, e.WellFormed signatures.Declares scope.Known) :
    Makes g (elaborateAttributes signatures scope settings) (TranslatedSettings scope settings) := by
  induction settings generalizing g with
  | nil =>
      rw [elaborateAttributes]
      exact Makes.pure ⟨fun _ hvalue => absurd hvalue List.not_mem_nil, .nil⟩
  | cons setting settings ih =>
      obtain ⟨hsetting, hrest⟩ := forall_mem_settingExpressions_cons.1 hsettings
      rw [elaborateAttributes]
      apply Makes.bind (elaborateAttribute_translates hscope hsetting)
      rintro g₁ _ hle₁ ⟨stored, rfl, htranslates, hmem⟩
      apply Makes.bind (ih (hscope.mono hle₁) hrest)
      rintro g₂ values hle₂ ⟨hdrawn, hvalues⟩
      refine Makes.pure ⟨List.forall_mem_cons.2 ⟨?_, hdrawn⟩, .cons ⟨rfl, htranslates⟩ hvalues⟩
      exact fun x hx => hle₂ x (hmem x hx)

end Building

end Elaboration

end FlatDae
