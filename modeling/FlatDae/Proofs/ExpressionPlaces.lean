/-
Module: FlatDae.Proofs.ExpressionPlaces
Purpose: The tokens of an expression and where it starts. The tokens that an expression is written with are
  those of its operands in their order, with its own operator, function or name, the commas and
  parentheses of calls, and parentheses that only group. Every expression that is read stands there with
  its tokens, one after the other, and it starts where the first of them does that groups nothing.
Main exports: Expression.WrittenAs, Expression.LedBy, Expression.Within, WrittenAs.leading,
  WrittenAs.within, WrittenAs.operands_increasing, Grammar.places_expression
-/
import FlatDae.Proofs.NumberReading
import FlatDae.Proofs.TokenPlaces

namespace FlatDae.Source

/-! ### Tokens of an expression -/

/-- The tokens of the members of a list, with commas between them. -/
inductive Listed : List (List Token) → List Token → Prop where
  | nil : Listed [] []
  | single (tokens : List Token) : Listed [tokens] tokens
  | cons {first next tokens : List Token} {members : List (List Token)} (comma : Nat)
      (h : Listed (next :: members) tokens) :
      Listed (first :: next :: members) (first ++ { start := comma, spelling := "," } :: tokens)

/-- The tokens that select an output of a call; there may be none. -/
inductive SelectedBy : Option Nat → List Token → Prop where
  | none : SelectedBy none []
  | some (opening number closing : Nat) (digits : List Char) :
      SelectedBy (some (Decimal.natOfDigits digits))
        [{ start := opening, spelling := "\x7b" }, { start := number, spelling := String.ofList digits },
          { start := closing, spelling := "\x7d" }]

namespace Expression

/-- The expression is written with these tokens. It starts where its numeral, word or name stands, where its
    sign or the name of its function stands, or where its left operand starts; parentheses around it make
    no difference. -/
inductive WrittenAs : Expression → List Token → Prop where
  | number {spelling : String} {value : Float} (start : Nat) (hvalue : Decimal.read? spelling = some value) :
      WrittenAs (.number start value) [{ start, spelling }]
  | truth (start : Nat) (value : Bool) :
      WrittenAs (.truth start value) [{ start, spelling := if value then "true" else "false" }]
  | name (start : Nat) (n : String) : WrittenAs (.name start n) [{ start, spelling := n }]
  | signed {operand : Expression} {tokens : List Token} (start : Nat) (sign : Sign)
      (hoperand : WrittenAs operand tokens) :
      WrittenAs (.signed start sign operand) ({ start, spelling := sign.spelling } :: tokens)
  | binary {left right : Expression} {tokens tokens' : List Token} (op : BinaryOp) (place : Nat)
      (hleft : WrittenAs left tokens) (hright : WrittenAs right tokens') :
      WrittenAs (.binary left.start op left right)
        (tokens ++ { start := place, spelling := spelling op } :: tokens')
  | call {parts : List (Expression × List Token)} {arguments index : List Token} {output : Option Nat}
      (start : Nat) (function : String) (opening closing : Nat)
      (hparts : ∀ part ∈ parts, WrittenAs part.1 part.2)
      (hlisted : Listed (parts.map Prod.snd) arguments) (hindex : SelectedBy output index) :
      WrittenAs (.call start function (parts.map Prod.fst) output)
        ({ start, spelling := function } :: { start := opening, spelling := "(" } :: arguments ++
          { start := closing, spelling := ")" } :: index)
  | grouped {e : Expression} {tokens : List Token} (opening closing : Nat) (h : WrittenAs e tokens) :
      WrittenAs e ({ start := opening, spelling := "(", grouping := true } :: tokens ++
        [{ start := closing, spelling := ")", grouping := true }])

/-- The arguments of a call are written with these tokens, the commas among them. -/
def ArgumentsWrittenAs (args : List Expression) (tokens : List Token) : Prop :=
  ∃ parts : List (Expression × List Token), args = parts.map Prod.fst ∧
    (∀ part ∈ parts, part.1.WrittenAs part.2) ∧ Listed (parts.map Prod.snd) tokens

/-- The spelling of the token at the left of an expression: its numeral, word or name, its sign, the name of
    its function, or what the left operand begins with. -/
def LedBy (token : String) : Expression → Prop
  | .number _ value => Decimal.read? token = some value
  | .truth _ value => token = if value then "true" else "false"
  | .name _ n => token = n
  | .signed _ sign _ => token = sign.spelling
  | .binary _ _ left _ => left.LedBy token
  | .call _ function _ _ => token = function

/-- The expressions that an expression is made of, from left to right. -/
def operands : Expression → List Expression
  | .signed _ _ operand => [operand]
  | .binary _ _ left right => [left, right]
  | .call _ _ args _ => args
  | _ => []

/-- The first expression is the second one or within an operand of it. -/
inductive Within : Expression → Expression → Prop where
  | self (e : Expression) : Within e e
  | deeper {x operand e : Expression} (h : operand ∈ e.operands) (hin : Within x operand) : Within x e

namespace WrittenAs

variable {e : Expression} {tokens : List Token}

/-- The first token that groups nothing is the one at the left of the expression, and stands where the
    expression starts. -/
theorem leading (h : e.WrittenAs tokens) : ∃ token, tokens.find? (!·.grouping) = some token ∧
    token.start = e.start ∧ LedBy token.spelling e := by
  induction h with
  | number start hvalue => exact ⟨_, rfl, rfl, hvalue⟩
  | truth start value => exact ⟨_, rfl, rfl, rfl⟩
  | name start n => exact ⟨_, rfl, rfl, rfl⟩
  | signed start sign hoperand ih => exact ⟨_, rfl, rfl, rfl⟩
  | binary op place hleft hright ih ih' =>
      obtain ⟨token, hfind, hstart, hled⟩ := ih
      exact ⟨token, by rw [List.find?_append, hfind, Option.some_or], hstart, hled⟩
  | call start function opening closing hparts hlisted hindex ih => exact ⟨_, rfl, rfl, rfl⟩
  | grouped opening closing h ih =>
      obtain ⟨token, hfind, hstart, hled⟩ := ih
      refine ⟨token, ?_, hstart, hled⟩
      rw [List.cons_append, List.find?_cons_of_neg (by simp), List.find?_append, hfind, Option.some_or]

end WrittenAs

end Expression

/-- The tokens of a member stand together. -/
theorem Listed.infix_of_mem {members : List (List Token)} {tokens member : List Token} (h : Listed members tokens)
    (hmember : member ∈ members) : member <:+: tokens := by
  induction h with
  | nil => cases hmember
  | single tokens => exact List.mem_singleton.1 hmember ▸ List.infix_rfl
  | @cons first next tokens members comma h ih =>
      rcases List.mem_cons.1 hmember with rfl | hmem
      · exact (List.prefix_append _ _).isInfix
      · exact ((ih hmem).trans (List.suffix_cons _ _).isInfix).trans (List.suffix_append _ _).isInfix

/-- The tokens of the members keep their order. -/
theorem Listed.pairwise {R : Token → Token → Prop} {members : List (List Token)} {tokens : List Token}
    (h : Listed members tokens) (hR : tokens.Pairwise R) :
    members.Pairwise fun us vs => ∀ u ∈ us, ∀ v ∈ vs, R u v := by
  induction h with
  | nil => exact .nil
  | single tokens => exact List.pairwise_singleton _ _
  | @cons first next tokens members comma h ih =>
      obtain ⟨-, hrest, hacross⟩ := List.pairwise_append.1 hR
      refine .cons (fun vs hvs u hu v hv => ?_) (ih (List.pairwise_cons.1 hrest).2)
      exact hacross u hu v (List.mem_cons_of_mem _ ((h.infix_of_mem hvs).subset hv))

namespace Expression.WrittenAs

variable {e x : Expression} {tokens : List Token}

/-- The tokens of an operand stand together among those of the expression. -/
theorem operand (h : e.WrittenAs tokens) (hx : x ∈ e.operands) :
    ∃ own, own <:+: tokens ∧ x.WrittenAs own := by
  induction h with
  | number | truth | name => cases hx
  | signed start sign hoperand =>
      rw [List.mem_singleton.1 hx]
      exact ⟨_, (List.suffix_cons _ _).isInfix, hoperand⟩
  | binary op place hleft hright =>
      rcases List.mem_pair.1 hx with rfl | rfl
      · exact ⟨_, (List.prefix_append _ _).isInfix, hleft⟩
      · exact ⟨_, ((List.suffix_cons _ _).trans (List.suffix_append _ _)).isInfix, hright⟩
  | @call parts arguments index output start function opening closing hparts hlisted hindex =>
      obtain ⟨part, hpart, rfl⟩ := List.mem_map.1 hx
      have hown : part.2 <:+: arguments := hlisted.infix_of_mem (List.mem_map_of_mem hpart)
      refine ⟨part.2, hown.trans ?_, hparts part hpart⟩
      exact ⟨[{ start, spelling := function }, { start := opening, spelling := "(" }], _, rfl⟩
  | grouped opening closing h ih =>
      obtain ⟨own, hown, hwritten⟩ := ih hx
      exact ⟨own, hown.trans ⟨[{ start := opening, spelling := "(", grouping := true }], _, rfl⟩, hwritten⟩

/-- So do the tokens of every expression within it. -/
theorem within (h : e.WrittenAs tokens) (hx : Within x e) : ∃ own, own <:+: tokens ∧ x.WrittenAs own := by
  induction hx generalizing tokens with
  | self => exact ⟨tokens, List.infix_rfl, h⟩
  | deeper hoperand _ ih =>
      obtain ⟨tokens', htokens', hwritten⟩ := h.operand hoperand
      obtain ⟨own, hown, hx⟩ := ih hwritten
      exact ⟨own, hown.trans htokens', hx⟩

/-- An expression starts where one of its tokens does. -/
theorem exists_start (h : e.WrittenAs tokens) : ∃ token ∈ tokens, token.start = e.start := by
  obtain ⟨token, hfind, hstart, -⟩ := h.leading
  exact ⟨token, List.mem_of_find?_eq_some hfind, hstart⟩

/-- A binary operation starts where its left operand does. -/
theorem start_eq_left (h : e.WrittenAs tokens) {start : Nat} {op : BinaryOp} {left right : Expression}
    (he : e = .binary start op left right) : start = left.start := by
  induction h with
  | binary op' place hleft hright =>
      obtain ⟨rfl, -, rfl, -⟩ := Expression.binary.inj he
      rfl
  | grouped opening closing _ ih => exact ih he
  | _ => cases he

/-- If the tokens stand one after the other, the operands start one after the other. -/
theorem operands_increasing (h : e.WrittenAs tokens) (hincreasing : tokens.Pairwise (·.start < ·.start)) :
    e.operands.Pairwise (·.start < ·.start) := by
  induction h with
  | number | truth | name => exact .nil
  | signed => exact List.pairwise_singleton _ _
  | binary op place hleft hright =>
      obtain ⟨-, -, hacross⟩ := List.pairwise_append.1 hincreasing
      obtain ⟨token, htoken, hstart⟩ := hleft.exists_start
      obtain ⟨token', htoken', hstart'⟩ := hright.exists_start
      have hlt := hacross token htoken token' (List.mem_cons_of_mem _ htoken')
      exact List.pairwise_pair.2 (hstart ▸ hstart' ▸ hlt)
  | @call parts arguments index output start function opening closing hparts hlisted hindex =>
      have harguments : arguments.Pairwise (·.start < ·.start) :=
        (hincreasing.sublist (List.sublist_append_left _ _)).of_cons.of_cons
      have hmembers := List.pairwise_map.1 (hlisted.pairwise harguments)
      refine List.pairwise_map.2 (hmembers.imp_of_mem fun {part part'} hpart hpart' hacross => ?_)
      obtain ⟨token, htoken, hstart⟩ := (hparts part hpart).exists_start
      obtain ⟨token', htoken', hstart'⟩ := (hparts part' hpart').exists_start
      exact hstart ▸ hstart' ▸ hacross token htoken token' htoken'
  | grouped opening closing h ih =>
      exact ih ((hincreasing.sublist (List.sublist_append_left _ _)).of_cons)

end Expression.WrittenAs

/-! ### Expressions that are read -/

theorem spelling_ne_nil (op : BinaryOp) : (spelling op).toList ≠ [] := by
  cases op <;> decide

namespace Grammar

open FlatDae.Source.Parser

/-- An expression that the parser reads stands there with its tokens. -/
def Places (p : Parser Expression) : Prop :=
  ∀ ⦃c e c'⦄, p c = some (e, c') → ∃ tokens, e.WrittenAs tokens ∧ Stand tokens c c'

/-- An operator that the parser reads stands there as a token. -/
def PlacesOperator (p : Parser BinaryOp) : Prop :=
  ∀ ⦃c op c'⦄, p c = some (op, c') → ∃ place, Stand [{ start := place, spelling := spelling op }] c c'

variable {c c' : Cursor} {bound : Nat} {nested factor : Parser Expression}

theorem places_number : Places number := by
  intro c e c' h
  obtain ⟨spelling, value, hvalue, rfl, hstand⟩ := stand_number h
  exact ⟨_, .number _ hvalue, hstand⟩

theorem places_truth : Places truth := by
  intro c e c' h
  replace h := of_start h
  rcases or_of_orElse h with h | h
  · obtain ⟨rfl, hword⟩ := of_returning h
    exact ⟨_, .truth _ true, (stand_word (by decide) hword).past⟩
  · obtain ⟨rfl, hword⟩ := of_returning h
    exact ⟨_, .truth _ false, (stand_word (by decide) hword).past⟩

theorem places_reference : Places reference := by
  intro c e c' h
  replace h := of_start h
  obtain ⟨n, c₂, hname, hpure⟩ := bind_eq_some_iff.1 h
  obtain ⟨rfl, rfl⟩ := pure_eq_some_iff.1 hpure
  exact ⟨_, .name _ n, (stand_name hname).past⟩

theorem places_parenthesised (hnested : Places nested) : Places (parenthesised nested) := by
  intro c e c' h
  obtain ⟨_, c₁, hopening, h⟩ := bind_eq_some_iff.1 h
  obtain ⟨e', c₂, he, h⟩ := bind_eq_some_iff.1 h
  obtain ⟨rfl, hclosing⟩ := of_returning h
  obtain ⟨tokens, hwritten, hstand⟩ := hnested he
  exact ⟨_, .grouped _ _ hwritten, ((stand_literal (by decide) hopening true).append hstand).append
    (stand_literal (by decide) hclosing true)⟩

/-! Operands with operators between them. -/

theorem placesOperator_operator (ops : List BinaryOp) : PlacesOperator (operator ops) := by
  intro c op c' h
  obtain ⟨p, hp, hread⟩ := exists_of_firstOf h
  obtain ⟨op', -, rfl⟩ := List.mem_map.1 hp
  obtain ⟨rfl, hliteral⟩ := of_returning hread
  exact ⟨_, stand_literal (spelling_ne_nil op) hliteral false⟩

theorem placesOperator_wordOperator (op : BinaryOp) : PlacesOperator (wordOperator op) := by
  intro c op' c' h
  obtain ⟨rfl, hword⟩ := of_returning h
  exact ⟨_, stand_word (spelling_ne_nil op') hword⟩

/-- Operands taken together from the left stand where they were read, with the operators between them. -/
theorem stand_foldl {op : Parser BinaryOp} {operand : Parser Expression} (hop : PlacesOperator op)
    (hoperand : Places operand) {more : List (BinaryOp × Expression)} {first : Expression}
    {tokens : List Token} {c₀ : Cursor}
    (h : Each (fun r c c' => (do return (← op, ← operand) : Parser (BinaryOp × Expression)) c = some (r, c'))
      more c c')
    (hfirst : first.WrittenAs tokens) (hstand : Stand tokens c₀ c) : ∃ tokens',
      (more.foldl (fun left (op, right) => .binary left.start op left right) first).WrittenAs tokens' ∧
        Stand tokens' c₀ c' := by
  induction h generalizing first tokens with
  | nil c => exact ⟨tokens, hfirst, hstand⟩
  | cons hread _ ih =>
      obtain ⟨o, c₁, ho, hread⟩ := bind_eq_some_iff.1 hread
      obtain ⟨e, c₂, he, hpure⟩ := bind_eq_some_iff.1 hread
      obtain ⟨rfl, rfl⟩ := pure_eq_some_iff.1 hpure
      obtain ⟨place, hplace⟩ := hop ho
      obtain ⟨tokens', hwritten, hstand'⟩ := hoperand he
      exact ih (.binary o place hfirst hwritten) (hstand.append (hplace.append hstand'))

theorem places_leftAssociative {op : Parser BinaryOp} {operand : Parser Expression}
    (hop : PlacesOperator op) (hoperand : Places operand) :
    Places (leftAssociative bound op operand) := by
  intro c e c' h
  obtain ⟨first, c₁, hfirst, h⟩ := bind_eq_some_iff.1 h
  obtain ⟨more, c₂, hmore, hpure⟩ := bind_eq_some_iff.1 h
  obtain ⟨rfl, rfl⟩ := pure_eq_some_iff.1 hpure
  obtain ⟨tokens, hwritten, hstand⟩ := hoperand hfirst
  exact stand_foldl hop hoperand (many_reads hmore) hwritten hstand

theorem places_term (hfactor : Places factor) : Places (term bound factor) :=
  places_leftAssociative (placesOperator_operator _)
    (places_leftAssociative (placesOperator_operator _) hfactor)

theorem places_signedTerm (hfactor : Places factor) : Places (signedTerm bound factor) := by
  intro c e c' h
  replace h := of_start h
  obtain ⟨sign, c₂, hsign, h⟩ := bind_eq_some_iff.1 h
  obtain ⟨operand, c₃, hoperand, hpure⟩ := bind_eq_some_iff.1 h
  obtain ⟨rfl, rfl⟩ := pure_eq_some_iff.1 hpure
  have hstandSign : Stand [{ start := (pastBlanks (pastBlanks c)).offset, spelling := sign.spelling }]
      (pastBlanks c) c₂ := by
    obtain ⟨p, hp, hread⟩ := exists_of_firstOf hsign
    simp only [List.mem_cons, List.not_mem_nil, or_false] at hp
    rcases hp with rfl | rfl
    · obtain ⟨rfl, hminus⟩ := of_returning hread
      exact stand_literal (by decide) hminus false
    · obtain ⟨rfl, hplus⟩ := of_returning hread
      exact stand_literal (by decide) hplus false
  obtain ⟨tokens, hwritten, hstand⟩ := places_term hfactor hoperand
  exact ⟨_, .signed _ sign hwritten, (hstandSign.append hstand).past⟩

theorem places_arithmetic (hfactor : Places factor) : Places (arithmetic bound factor) := by
  intro c e c' h
  obtain ⟨first, c₁, hfirst, h⟩ := bind_eq_some_iff.1 h
  obtain ⟨more, c₂, hmore, hpure⟩ := bind_eq_some_iff.1 h
  obtain ⟨rfl, rfl⟩ := pure_eq_some_iff.1 hpure
  have hplaced : ∃ tokens, first.WrittenAs tokens ∧ Stand tokens c c₁ := by
    rcases or_of_orElse hfirst with hfirst | hfirst
    · exact places_signedTerm hfactor hfirst
    · exact places_term hfactor hfirst
  obtain ⟨tokens, hwritten, hstand⟩ := hplaced
  exact stand_foldl (placesOperator_operator _) (places_term hfactor) (many_reads hmore) hwritten hstand

theorem places_inversion (hfactor : Places factor) : Places (inversion bound factor) := by
  have hrelation : Places (relation bound factor) :=
    places_leftAssociative (placesOperator_operator _) (places_arithmetic hfactor)
  intro c e c' h
  replace h := of_start h
  obtain ⟨negated, c₂, hnot, h⟩ := bind_eq_some_iff.1 h
  rcases of_optional hnot with ⟨_, rfl, hword⟩ | ⟨rfl, rfl⟩
  · obtain ⟨operand, c₃, hoperand, hpure⟩ := bind_eq_some_iff.1 h
    obtain ⟨rfl, rfl⟩ := pure_eq_some_iff.1 hpure
    obtain ⟨tokens, hwritten, hstand⟩ := hrelation hoperand
    exact ⟨_, .signed _ .not hwritten, ((stand_word (by decide) hword).append hstand).past⟩
  · obtain ⟨tokens, hwritten, hstand⟩ := hrelation h
    exact ⟨tokens, hwritten, .blanks hstand⟩

theorem places_expressionOver (hfactor : Places factor) : Places (expressionOver bound factor) :=
  places_leftAssociative (placesOperator_wordOperator _)
    (places_leftAssociative (placesOperator_wordOperator _) (places_inversion hfactor))

/-! Calls. -/

/-- Members that are read one after the other, with a comma in front of each but the first, stand there as
    a list. -/
theorem stand_listed (hnested : Places nested) {more : List Expression} {first : Expression}
    {tokens : List Token} {c₀ : Cursor}
    (h : Each (fun e c c' => (literal "," *> nested) c = some (e, c')) more c c')
    (hfirst : first.WrittenAs tokens) (hstand : Stand tokens c₀ c) :
    ∃ listed, Expression.ArgumentsWrittenAs (first :: more) listed ∧ Stand listed c₀ c' := by
  induction h generalizing first tokens c₀ with
  | nil c => exact ⟨tokens, ⟨[(first, tokens)], rfl, by simpa using hfirst, .single tokens⟩, hstand⟩
  | cons hread _ ih =>
      obtain ⟨_, c₁, hcomma, hnext⟩ := bind_eq_some_iff.1 hread
      obtain ⟨tokens', hwritten, hstand'⟩ := hnested hnext
      obtain ⟨listed, ⟨parts, hargs, hparts, hlisted⟩, hstandListed⟩ := ih hwritten hstand'
      cases parts with
      | nil => cases hargs
      | cons part parts =>
          have hall := hstand.append ((stand_literal (by decide) hcomma false).append hstandListed)
          exact ⟨_, ⟨(first, tokens) :: part :: parts, by rw [hargs]; rfl,
            List.forall_mem_cons.2 ⟨hfirst, hparts⟩, .cons _ hlisted⟩, hall⟩

/-- The arguments of a call stand there as a list, which may be empty. -/
theorem stand_arguments (hnested : Places nested) {args : List Expression}
    (h : (separated bound nested <|> pure []) c = some (args, c')) :
    ∃ listed, Expression.ArgumentsWrittenAs args listed ∧ Stand listed c c' := by
  rcases or_of_orElse h with h | h
  · obtain ⟨first, c₁, hfirst, h⟩ := bind_eq_some_iff.1 h
    obtain ⟨more, c₂, hmore, hpure⟩ := bind_eq_some_iff.1 h
    obtain ⟨rfl, rfl⟩ := pure_eq_some_iff.1 hpure
    obtain ⟨tokens, hwritten, hstand⟩ := hnested hfirst
    exact stand_listed hnested (many_reads hmore) hwritten hstand
  · obtain ⟨rfl, rfl⟩ := pure_eq_some_iff.1 h
    exact ⟨[], ⟨[], rfl, by simp, .nil⟩, .nil _⟩

theorem selectedBy_outputIndex {k : Nat} (h : outputIndex c = some (k, c')) :
    ∃ tokens, SelectedBy (some k) tokens ∧ Stand tokens c c' := by
  obtain ⟨_, c₁, hopening, h⟩ := bind_eq_some_iff.1 h
  obtain ⟨_, c₂, hblanks, h⟩ := bind_eq_some_iff.1 h
  obtain rfl : pastBlanks c₁ = c₂ := (Prod.mk.inj (Option.some.inj hblanks)).2
  obtain ⟨digits, c₃, htake, h⟩ := bind_eq_some_iff.1 h
  split at h
  · cases h
  · rename_i hsome
    obtain ⟨rfl, hclosing⟩ := of_returning h
    have hdigits : (pastBlanks c₁).Passes (String.ofList digits).toList c₃ := by
      rw [String.toList_ofList]
      exact (passes_takeWhile htake).1
    have hne : (String.ofList digits).toList ≠ [] := by
      rwa [String.toList_ofList, Ne, ← List.isEmpty_iff]
    have hnumber : Stand [{ start := (pastBlanks c₁).offset, spelling := String.ofList digits }] c₁ c₃ :=
      .single rfl hne hdigits
    exact ⟨_, .some _ _ _ digits, (stand_literal (by decide) hopening false).append
      (hnumber.append (stand_literal (by decide) hclosing false))⟩

theorem places_call (hnested : Places nested) : Places (call bound nested) := by
  intro c e c' h
  replace h := of_start h
  obtain ⟨function, c₂, hname, h⟩ := bind_eq_some_iff.1 h
  obtain ⟨_, c₃, hopening, h⟩ := bind_eq_some_iff.1 h
  obtain ⟨args, c₄, hargs, h⟩ := bind_eq_some_iff.1 h
  obtain ⟨_, c₅, hclosing, h⟩ := bind_eq_some_iff.1 h
  obtain ⟨output, c₆, houtput, hpure⟩ := bind_eq_some_iff.1 h
  obtain ⟨rfl, rfl⟩ := pure_eq_some_iff.1 hpure
  have hselected : ∃ index, SelectedBy output index ∧ Stand index c₅ c₆ := by
    rcases of_optional houtput with ⟨k, rfl, hk⟩ | ⟨rfl, rfl⟩
    · exact selectedBy_outputIndex hk
    · exact ⟨[], .none, .nil _⟩
  obtain ⟨arguments, ⟨parts, rfl, hparts, hlisted⟩, harguments⟩ := stand_arguments hnested hargs
  obtain ⟨index, hindex, hstandIndex⟩ := hselected
  have hstand : Stand ({ start := (pastBlanks (pastBlanks c)).offset, spelling := function } ::
      { start := (pastBlanks c₂).offset, spelling := "(" } :: arguments ++
        { start := (pastBlanks c₄).offset, spelling := ")" } :: index) (pastBlanks c) c₆ :=
    (((stand_name hname).append (stand_literal (by decide) hopening false)).append harguments).append
      ((stand_literal (by decide) hclosing false).append hstandIndex)
  exact ⟨_, .call _ function _ _ hparts hlisted hindex, hstand.past⟩

/-- At any depth, atoms stand there with their tokens. -/
theorem places_factor (bound depth : Nat) : Places (Grammar.factor bound depth) := by
  induction depth with
  | zero =>
      intro c e c' h
      cases h
  | succ depth ih =>
      have hnested : Places (expressionOver bound (Grammar.factor bound depth)) := places_expressionOver ih
      intro c e c' h
      obtain ⟨p, hp, hread⟩ := exists_of_firstOf h
      simp only [List.mem_cons, List.not_mem_nil, or_false] at hp
      rcases hp with rfl | rfl | rfl | rfl | rfl
      · exact places_call hnested hread
      · exact places_number hread
      · exact places_truth hread
      · exact places_reference hread
      · exact places_parenthesised hnested hread

theorem places_expression (bound : Nat) : Places (expression bound) :=
  places_expressionOver (places_factor bound bound)

end Grammar

end FlatDae.Source
