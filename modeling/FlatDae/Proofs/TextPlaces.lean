/-
Module: FlatDae.Proofs.TextPlaces
Purpose: Where the expressions of a text start, and the texts in quotes. Reading goes ahead from the
  beginning of the text, so every value that is read on the way, in whatever declaration or equation,
  stands in the text with its tokens. The offset at which an expression starts, or any expression within
  it, is that of its leftmost token, which the text has there; grouping parentheses do not count. Operands
  and arguments start one behind the other.
Main exports: Cursor.Covers, Parser.Finds, Grammar.finds_element, Expression.StandsIn, Expression.Placed,
  parse_placed
-/
import FlatDae.Proofs.ExpressionPlaces

namespace FlatDae.Source

/-- The value is written with these tokens; a text in quotes is one token. -/
inductive AttributeValue.WrittenAs : AttributeValue → List Token → Prop where
  | text (start : Nat) (t : String) : WrittenAs (.text start t) [{ start, spelling := "\"" ++ t ++ "\"" }]
  | expression {e : Expression} {tokens : List Token} (h : e.WrittenAs tokens) :
      WrittenAs (.expression e) tokens

/-- The values stand behind the first place, each with its tokens, and the second place is ahead of it. -/
structure Cursor.Covers (c c' : Cursor) (vs : List AttributeValue) : Prop where
  ahead : c.Ahead c'
  stand : ∀ v ∈ vs, ∃ tokens c₁ c₂, v.WrittenAs tokens ∧ c.Ahead c₁ ∧ Stand tokens c₁ c₂

theorem Cursor.covers_start (c : Cursor) : c.Covers c [] := ⟨.refl c, by simp⟩

theorem Cursor.Covers.subset {c c' : Cursor} {vs ws : List AttributeValue} (h : c.Covers c' vs)
    (hsubset : ws ⊆ vs) : c.Covers c' ws :=
  ⟨h.ahead, fun v hv => h.stand v (hsubset hv)⟩

theorem Cursor.Covers.advance {c c' c'' : Cursor} {vs : List AttributeValue} (h : c.Covers c' vs)
    (hahead : c'.Ahead c'') : c.Covers c'' vs :=
  ⟨h.ahead.trans hahead, h.stand⟩

/-- One more value is covered if it stands behind the second place. -/
theorem Cursor.Covers.value {c c' c'' : Cursor} {vs : List AttributeValue} {v : AttributeValue}
    {tokens : List Token} (h : c.Covers c' vs) (hwritten : v.WrittenAs tokens) (hstand : Stand tokens c' c'') :
    c.Covers c'' (vs ++ [v]) := by
  refine ⟨h.ahead.trans hstand.ahead, fun w hw => ?_⟩
  rcases List.mem_append.1 hw with hw | hw
  · exact h.stand w hw
  · rw [List.mem_singleton.1 hw]
    exact ⟨tokens, c', c'', hwritten, h.ahead, hstand⟩

/-! ### Parsers that find values -/

namespace Parser

variable {α β : Type} {p q : Parser α} {before : List AttributeValue}

/-- From where `before` is covered, the parser goes ahead to where `after a` is covered if it reads `a`. -/
def Finds (before : List AttributeValue) (p : Parser α) (after : α → List AttributeValue) : Prop :=
  ∀ ⦃c₀ c : Cursor⦄ ⦃a : α⦄ ⦃c' : Cursor⦄, p c = some (a, c') → c₀.Covers c before → c₀.Covers c' (after a)

namespace Finds

variable {after : α → List AttributeValue}

theorem pure {a : α} (h : after a ⊆ before) : Finds before (pure a) after := by
  intro c₀ c b c' hread hcovers
  obtain ⟨rfl, rfl⟩ := pure_eq_some_iff.1 hread
  exact hcovers.subset h

theorem fewer {fewer : α → List AttributeValue} (hp : Finds before p after) (h : ∀ a, fewer a ⊆ after a) :
    Finds before p fewer :=
  fun _ _ a _ hread hcovers => (hp hread hcovers).subset (h a)

theorem bind {f : α → Parser β} {last : β → List AttributeValue} (hp : Finds before p after)
    (hf : ∀ a, Finds (after a) (f a) last) : Finds before (p >>= f) last := by
  intro c₀ c b c' hread hcovers
  obtain ⟨a, c₁, hfirst, hread⟩ := bind_eq_some_iff.1 hread
  exact hf a hread (hp hfirst hcovers)

theorem orElse (hp : Finds before p after) (hq : Finds before q after) : Finds before (p <|> q) after := by
  intro c₀ c a c' hread
  rcases or_of_orElse hread with hread | hread
  · exact hp hread
  · exact hq hread

theorem firstOf {ps : List (Parser α)} (h : ∀ p ∈ ps, Finds before p after) :
    Finds before (firstOf ps) after := by
  intro c₀ c a c' hread
  obtain ⟨p, hp, hread⟩ := exists_of_firstOf hread
  exact h p hp hread

/-- Items that are read one after the other are covered together. -/
theorem each {parts : α → List AttributeValue} (hp : ∀ before, Finds before p fun a => before ++ parts a)
    {as : List α} {c₀ c c' : Cursor} (h : Each (fun a c c' => p c = some (a, c')) as c c')
    (hcovers : c₀.Covers c before) : c₀.Covers c' (before ++ as.flatMap parts) := by
  induction h generalizing before with
  | nil c => simpa using hcovers
  | cons hread _ ih =>
      have hrest := ih (hp before hread hcovers)
      rwa [List.append_assoc, ← List.flatMap_cons] at hrest

theorem many {parts : α → List AttributeValue} (hp : ∀ before, Finds before p fun a => before ++ parts a)
    (bound : Nat) : Finds before (many bound p) fun as => before ++ as.flatMap parts :=
  fun _ _ _ _ hread => each hp (many_reads hread)

theorem separated {parts : α → List AttributeValue} (hp : ∀ before, Finds before p fun a => before ++ parts a)
    (hcomma : ∀ before, Finds before (literal ",") fun _ => before) (bound : Nat) :
    Finds before (separated bound p) fun as => before ++ as.flatMap parts := by
  refine (hp before).bind fun first => ?_
  refine (many (fun before => (hcomma before).bind fun _ => hp before) bound).bind fun more => pure ?_
  simp

end Finds

/-! Tokens that are no part of a value are passed. -/

theorem finds_start : Finds before start fun _ => before := by
  intro c₀ c offset c' hread hcovers
  obtain rfl : pastBlanks c = c' := (Prod.mk.inj (Option.some.inj hread)).2
  exact hcovers.advance (ahead_pastBlanks c)

theorem finds_literal (t : String) : Finds before (literal t) fun _ => before :=
  fun _ _ _ _ hread hcovers => hcovers.advance ((ahead_pastBlanks _).trans (passes_exactly hread).ahead)

theorem finds_word (t : String) : Finds before (word t) fun _ => before := by
  refine (finds_literal t).bind fun _ => ?_
  intro c₀ c a c' hread hcovers
  rw [atNameEnd_eq] at hread
  split at hread
  · obtain ⟨-, rfl⟩ := Prod.mk.inj (Option.some.inj hread)
    exact hcovers
  · cases hread

theorem finds_name : Finds before Grammar.name fun _ => before :=
  fun _ _ _ _ hread hcovers => hcovers.advance (stand_name hread).ahead

end Parser

/-! ### Declarations and equations -/

namespace Grammar

open FlatDae.Source.Parser

/-- The values that stand by themselves in an element. -/
def Element.values : Element → List AttributeValue
  | .type d => d.attributes.map (·.value)
  | .function d => d.outputs.map .expression
  | .component c => c.attributes.map (·.value) ++ c.binding.toList.map .expression
  | .initialSection eqs | .equationSection eqs =>
    eqs.flatMap fun eq => [.expression eq.lhs, .expression eq.rhs]

variable {before : List AttributeValue}

theorem finds_expression (bound : Nat) :
    Finds before (expression bound) fun e => before ++ [.expression e] := by
  intro c₀ c e c' hread hcovers
  obtain ⟨tokens, hwritten, hstand⟩ := places_expression bound hread
  exact hcovers.value (.expression hwritten) hstand

theorem finds_quoted : Finds before quoted fun v => before ++ [v] := by
  intro c₀ c v c' hread hcovers
  have h := of_start hread
  obtain ⟨_, c₂, hopening, h⟩ := bind_eq_some_iff.1 h
  obtain ⟨text, c₃, htake, h⟩ := bind_eq_some_iff.1 h
  obtain ⟨_, c₄, hclosing, hpure⟩ := bind_eq_some_iff.1 h
  obtain ⟨rfl, rfl⟩ := pure_eq_some_iff.1 hpure
  have hpasses := ((passes_exactly hopening).append (passes_takeWhile htake).1).append (passes_exactly hclosing)
  refine hcovers.value (.text _ _) (.single rfl (by simp) ?_)
  simpa using hpasses

theorem finds_attributeSetting (bound : Nat) :
    Finds before (attributeSetting bound) fun setting => before ++ [setting.value] := by
  refine finds_start.bind fun offset => finds_name.bind fun n => (finds_literal _).bind fun _ => ?_
  refine (finds_quoted.orElse ?_).bind fun value => .pure (List.Subset.refl _)
  exact (finds_expression bound).bind fun e => .pure (List.Subset.refl _)

/-- Attributes in parentheses may be left out. -/
theorem finds_modification (bound : Nat) : Finds before (modification bound <|> pure []) fun attributes =>
    before ++ attributes.map (·.value) := by
  have hsettings : Finds before (separated bound (attributeSetting bound)) fun attributes =>
      before ++ attributes.map (·.value) := by
    simp only [List.map_eq_flatMap]
    exact .separated (fun _ => finds_attributeSetting bound) (fun _ => finds_literal ",") bound
  have hnone : Finds before (pure [] : Parser (List AttributeSetting)) fun attributes =>
      before ++ attributes.map (·.value) := .pure (by simp)
  refine .orElse ((finds_literal _).bind fun _ => (hsettings.orElse hnone).bind fun attributes =>
    (finds_literal _).bind fun _ => .pure (List.Subset.refl _)) hnone

theorem finds_typeDeclaration (bound : Nat) : Finds before (typeDeclaration bound) fun d =>
    before ++ d.attributes.map (·.value) := by
  refine finds_start.bind fun offset => (finds_literal _).bind fun _ => finds_name.bind fun declared => ?_
  refine (finds_literal _).bind fun _ => finds_name.bind fun base => ?_
  exact (finds_modification bound).bind fun attributes => (finds_literal _).bind fun _ =>
    .pure (List.Subset.refl _)

theorem finds_functionDeclaration (bound : Nat) : Finds before (functionDeclaration bound) fun d =>
    before ++ d.outputs.map .expression := by
  have hparams : Finds before (separated bound name <|> pure []) fun _ => before := by
    refine .orElse ?_ (.pure (List.Subset.refl _))
    have hfound : Finds before (separated bound name) fun names => before ++ names.flatMap fun _ => [] :=
      .separated (fun _ => finds_name.fewer (by simp)) (fun _ => finds_literal ",") bound
    exact hfound.fewer (by simp)
  have houtputs : Finds before (separated bound (expression bound)) fun outputs =>
      before ++ outputs.map .expression := by
    simp only [List.map_eq_flatMap]
    exact .separated (fun _ => finds_expression bound) (fun _ => finds_literal ",") bound
  refine finds_start.bind fun offset => (finds_literal _).bind fun _ => finds_name.bind fun declared => ?_
  refine (finds_literal _).bind fun _ => hparams.bind fun params => (finds_literal _).bind fun _ => ?_
  refine (finds_literal _).bind fun _ => (finds_literal _).bind fun _ => houtputs.bind fun outputs => ?_
  exact (finds_literal _).bind fun _ => (finds_literal _).bind fun _ => .pure (List.Subset.refl _)

theorem finds_qualifier : Finds before qualifier fun _ => before := by
  refine .firstOf fun p hp => ?_
  obtain ⟨q, -, rfl⟩ := List.mem_map.1 hp
  exact (finds_word _).bind fun _ => .pure (List.Subset.refl _)

theorem finds_aliasClause : Finds before aliasClause fun _ => before := by
  have hnegated : Finds before ((do literal "-"; return true) <|> pure false) fun _ => before :=
    .orElse ((finds_literal _).bind fun _ => .pure (List.Subset.refl _)) (.pure (List.Subset.refl _))
  exact (finds_literal _).bind fun _ => hnegated.bind fun _ => finds_name.bind fun _ =>
    .pure (List.Subset.refl _)

theorem finds_component (bound : Nat) : Finds before (component bound) fun c =>
    before ++ (c.attributes.map (·.value) ++ c.binding.toList.map .expression) := by
  have hqualifiers : Finds before (many bound qualifier) fun _ => before := by
    have hfound : Finds before (many bound qualifier) fun qualifiers =>
        before ++ qualifiers.flatMap fun _ => [] := .many (fun _ => finds_qualifier.fewer (by simp)) bound
    exact hfound.fewer (by simp)
  have hrest (found : List AttributeValue) : Finds found
      (firstOf [do return (some (← aliasClause), none), do return (none, some (← binding bound)),
        pure (none, none)])
      fun clauses : Option AliasClause × Option Expression => found ++ clauses.2.toList.map .expression := by
    refine .firstOf fun p hp => ?_
    simp only [List.mem_cons, List.not_mem_nil, or_false] at hp
    rcases hp with rfl | rfl | rfl
    · exact finds_aliasClause.bind fun _ => .pure (by simp)
    · have hbinding : Finds found (binding bound) fun e => found ++ [.expression e] :=
        (finds_literal _).bind fun _ => finds_expression bound
      exact hbinding.bind fun e => .pure (List.Subset.refl _)
    · exact .pure (by simp)
  refine finds_start.bind fun offset => hqualifiers.bind fun qualifiers => finds_name.bind fun typeName => ?_
  refine finds_name.bind fun declared => (finds_modification bound).bind fun attributes => ?_
  refine (hrest _).bind fun clauses => (finds_literal _).bind fun _ => .pure ?_
  rw [List.append_assoc]
  exact List.Subset.refl _

theorem finds_equation (bound : Nat) : Finds before (equation bound) fun eq =>
    before ++ [.expression eq.lhs, .expression eq.rhs] := by
  refine finds_start.bind fun offset => (finds_expression bound).bind fun lhs => ?_
  refine (finds_literal _).bind fun _ => (finds_expression bound).bind fun rhs => ?_
  refine (finds_literal _).bind fun _ => .pure ?_
  rw [List.append_assoc]
  exact List.Subset.refl _

/-- The values of every element are found. -/
theorem finds_element (bound : Nat) : Finds before (element bound) fun e => before ++ e.values := by
  have hequations : Finds before (many bound (equation bound)) fun eqs =>
      before ++ eqs.flatMap fun eq => [.expression eq.lhs, .expression eq.rhs] :=
    .many (fun _ => finds_equation bound) bound
  refine .firstOf fun p hp => ?_
  simp only [List.mem_cons, List.not_mem_nil, or_false] at hp
  rcases hp with rfl | rfl | rfl | rfl | rfl
  · exact (finds_typeDeclaration bound).bind fun d => .pure (List.Subset.refl _)
  · exact (finds_functionDeclaration bound).bind fun d => .pure (List.Subset.refl _)
  · exact (finds_literal _).bind fun _ => (finds_literal _).bind fun _ => hequations.bind fun eqs =>
      .pure (List.Subset.refl _)
  · exact (finds_literal _).bind fun _ => hequations.bind fun eqs => .pure (List.Subset.refl _)
  · exact (finds_component bound).bind fun c => .pure (List.Subset.refl _)

theorem finds_head : Finds before head fun _ => before :=
  finds_start.bind fun _ => (finds_literal _).bind fun _ => finds_name.bind fun _ =>
    .pure (List.Subset.refl _)

end Grammar

open Grammar (Element)

namespace Grammar.Element

variable {element : Element}

theorem subset_of_type? {d : TypeDeclaration} (h : element.type? = some d) :
    d.attributes.map (·.value) ⊆ element.values := by
  cases element with
  | type => cases h; exact List.Subset.refl _
  | _ => cases h

theorem subset_of_function? {d : FunctionDeclaration} (h : element.function? = some d) :
    d.outputs.map .expression ⊆ element.values := by
  cases element with
  | function => cases h; exact List.Subset.refl _
  | _ => cases h

theorem subset_of_component? {c : Component} (h : element.component? = some c) :
    c.attributes.map (·.value) ++ c.binding.toList.map .expression ⊆ element.values := by
  cases element with
  | component => cases h; exact List.Subset.refl _
  | _ => cases h

theorem sides_subset {eq : Equation} (h : eq ∈ element.initialEquations ∨ eq ∈ element.equations) :
    [.expression eq.lhs, .expression eq.rhs] ⊆ element.values := by
  cases element with
  | initialSection eqs =>
      have hmem : eq ∈ eqs := h.elim id fun hother => by cases hother
      exact fun v hv => List.mem_flatMap.2 ⟨eq, hmem, hv⟩
  | equationSection eqs =>
      have hmem : eq ∈ eqs := h.elim (fun hother => by cases hother) id
      exact fun v hv => List.mem_flatMap.2 ⟨eq, hmem, hv⟩
  | _ => rcases h with h | h <;> cases h

end Grammar.Element

/-- Every value that stands in a model text by itself: what attributes are set to, and expressions. -/
def Model.values (m : Model) : List AttributeValue :=
  m.types.flatMap (·.attributes.map (·.value)) ++
    m.functions.flatMap (·.outputs.map .expression) ++
    m.components.flatMap (fun c => c.attributes.map (·.value) ++ c.binding.toList.map .expression) ++
    (m.initialEquations ++ m.equations).flatMap fun eq => [.expression eq.lhs, .expression eq.rhs]

theorem mem_settingExpressions {settings : List AttributeSetting} {e : Expression} :
    e ∈ settingExpressions settings ↔ .expression e ∈ settings.map (·.value) := by
  rw [settingExpressions, List.mem_filterMap, List.mem_map]
  refine exists_congr fun setting => and_congr_right fun _ => ?_
  cases setting.value <;> simp

/-- The expressions of a text are those of its values that are no texts in quotes. -/
theorem Model.mem_expressions {text : Model} {e : Expression} :
    e ∈ text.expressions ↔ .expression e ∈ text.values := by
  simp [expressions, values, mem_settingExpressions]

/-- Every value of a text belongs to one of the elements that it is read from. -/
theorem Model.ReadFrom.values_subset {text : Model} {s : String} {elements : List Element}
    (h : text.ReadFrom s elements) : text.values ⊆ elements.flatMap Element.values := by
  intro v hv
  simp only [values, h.types, h.functions, h.components, h.initialEquations, h.equations,
    List.mem_append, List.mem_flatMap, List.mem_filterMap] at hv
  rw [List.mem_flatMap]
  rcases hv with ((⟨d, ⟨element, helement, hd⟩, hv⟩ | ⟨d, ⟨element, helement, hd⟩, hv⟩) |
    ⟨c, ⟨element, helement, hc⟩, hv⟩) | ⟨eq, ⟨element, helement, heq⟩ | ⟨element, helement, heq⟩, hv⟩
  · exact ⟨element, helement, Element.subset_of_type? hd hv⟩
  · exact ⟨element, helement, Element.subset_of_function? hd hv⟩
  · exact ⟨element, helement, Element.subset_of_component? hc (List.mem_append.2 hv)⟩
  · exact ⟨element, helement, Element.sides_subset (Or.inl heq) hv⟩
  · exact ⟨element, helement, Element.sides_subset (Or.inr heq) hv⟩

/-! ### Where expressions start -/

/-- Where an expression of a text stands in it, with the tokens that are its own. -/
structure Expression.Placed (s : String) (e : Expression) (tokens : List Token) : Prop where
  written : e.WrittenAs tokens
  /-- Nothing but blanks and comments stands between the tokens. -/
  stand : ∃ c c', (Cursor.ofString s).Ahead c ∧ Stand tokens c c'
  /-- The text has every token at its offset, and the offsets increase. -/
  standsAt : ∀ t ∈ tokens, StandsAt s t.start t.spelling
  increasing : tokens.Pairwise (·.start < ·.start)
  /-- It starts where the first token does that is no grouping parenthesis, which is the numeral, word, name
      or sign that it begins with. -/
  leading : ∃ token, tokens.find? (!·.grouping) = some token ∧ token.start = e.start ∧
    e.LedBy token.spelling ∧ StandsAt s e.start token.spelling
  /-- So a binary operation starts where its left operand does. -/
  left : ∀ {start op left right}, e = .binary start op left right → start = left.start
  /-- The operands or arguments start one behind the other. -/
  operands : e.operands.Pairwise (·.start < ·.start)

theorem Expression.WrittenAs.placed {s : String} {e : Expression} {tokens : List Token} {c c' : Cursor}
    (h : e.WrittenAs tokens) (hc : (Cursor.ofString s).Ahead c) (hstand : Stand tokens c c') :
    e.Placed s tokens where
  written := h
  stand := ⟨c, c', hc, hstand⟩
  standsAt := hstand.standsAt hc
  increasing := hstand.increasing
  leading := by
    obtain ⟨token, hfind, hstart, hled⟩ := h.leading
    have hstandsAt := hstand.standsAt hc token (List.mem_of_find?_eq_some hfind)
    exact ⟨token, hfind, hstart, hled, hstart ▸ hstandsAt⟩
  left := h.start_eq_left
  operands := h.operands_increasing hstand.increasing

/-- Every value of a text that is read stands in the text with its tokens. -/
theorem value_stands {s : String} {text : Model} (h : parse s = .ok text) {v : AttributeValue}
    (hv : v ∈ text.values) :
    ∃ tokens c c', v.WrittenAs tokens ∧ (Cursor.ofString s).Ahead c ∧ Stand tokens c c' := by
  obtain ⟨elements, c, c', last, hreadFrom, hhead, hread, -⟩ := parse_elements h
  have hcovers : (Cursor.ofString s).Covers c' ([] ++ elements.flatMap Element.values) :=
    Parser.Finds.each (fun _ => Grammar.finds_element s.length) hread
      (Grammar.finds_head hhead (Cursor.covers_start _))
  exact hcovers.stand v (hreadFrom.values_subset hv)

/-- The expression stands in the text: somewhere there the tokens that it is written with follow each other
    with nothing but blanks and comments between them. -/
def Expression.StandsIn (e : Expression) (s : String) : Prop :=
  ∃ tokens c c', e.WrittenAs tokens ∧ (Cursor.ofString s).Ahead c ∧ Stand tokens c c'

theorem Expression.standsIn_of_mem {s : String} {text : Model} (h : parse s = .ok text) {e : Expression}
    (he : e ∈ text.expressions) : e.StandsIn s := by
  obtain ⟨tokens, c, c', hvalue, hahead, hstand⟩ := value_stands h (Model.mem_expressions.1 he)
  cases hvalue with
  | expression hwritten => exact ⟨tokens, c, c', hwritten, hahead, hstand⟩

/-- Every expression of a text that is read stands in the text with its tokens, and so does every expression
    within it, with those tokens that are its own. A text in quotes starts at the opening quote. -/
theorem parse_placed {s : String} {text : Model} (h : parse s = .ok text) :
    (∀ e ∈ text.expressions, ∃ tokens, e.Placed s tokens ∧
      ∀ x : Expression, x.Within e → ∃ own, own <:+: tokens ∧ x.Placed s own) ∧
    ∀ start t, .text start t ∈ text.values → StandsAt s start ("\"" ++ t ++ "\"") := by
  constructor
  · intro e he
    obtain ⟨tokens, c, c', hwritten, hahead, hstand⟩ := Expression.standsIn_of_mem h he
    refine ⟨tokens, hwritten.placed hahead hstand, fun x hx => ?_⟩
    obtain ⟨own, hown, hx⟩ := hwritten.within hx
    obtain ⟨c₁, c₂, hfurther, hstandOwn⟩ := hstand.exists_of_isInfix hown
    exact ⟨own, hown, hx.placed (hahead.trans hfurther) hstandOwn⟩
  · intro start t ht
    obtain ⟨tokens, c, c', hvalue, hahead, hstand⟩ := value_stands h ht
    cases hvalue with
    | text => exact hstand.standsAt hahead _ List.mem_cons_self

/-- Comments with characters of several bytes stand between the tokens of the equations. -/
def remarkedText : String :=
  "model A Real x(unit = \"m\"); Real y = 2; equation x = /* ä€ */ -(x + 1) * f(x, y); " ++
    "/* Ω */ not ((x) and y) = 1.5; end A;"

set_option maxRecDepth 100000 in
theorem parse_remarkedText_starts : ((parse remarkedText).toOption.map fun text =>
    text.expressions.map fun e => (e.start, e.operands.map Expression.start)) =
      some [(37, []), (49, []), (65, [67]), (94, [100]), (112, [])] := by decide +kernel

theorem parse_placed_remarkedText : ∃ text, parse remarkedText = .ok text ∧
    text.expressions.map Expression.start = [37, 49, 65, 94, 112] ∧
    (∀ e ∈ text.expressions, ∃ tokens, e.Placed remarkedText tokens ∧
      ∀ x : Expression, x.Within e → ∃ own, own <:+: tokens ∧ x.Placed remarkedText own) ∧
    ∀ start t, .text start t ∈ text.values → StandsAt remarkedText start ("\"" ++ t ++ "\"") := by
  have hstarts := parse_remarkedText_starts
  cases hread : parse remarkedText with
  | error fault => rw [hread] at hstarts; cases hstarts
  | ok text =>
      rw [hread] at hstarts
      have hfirst := congrArg (List.map Prod.fst) (Option.some.inj hstarts)
      rw [List.map_map] at hfirst
      exact ⟨text, rfl, hfirst, parse_placed hread⟩

end FlatDae.Source
