/-
Module: FlatDae.Proofs.DeclarationReading
Purpose: How the declaration of a component is read that consists of a type and a name. Both are read as
  they stand if the type does not begin with the word that opens a section of equations. That word and the
  one in front of it are read whatever follows them, so a type that begins with them is taken apart: the
  word opens a section and what is left of the type is read on.
Main exports: DeclarationAt, Declares, DeclarationAt.reads_component, parse_declaration
-/
import FlatDae.Proofs.ExpressionReading

namespace FlatDae.Source

open FlatDae.Source.Grammar FlatDae.Source.Parser

/-- A type, a name and a semicolon stand at the front, with what is left behind each of them. -/
structure DeclarationAt (T x : String) (text afterType afterName rest : List Char) : Prop where
  type : dropBlanks text = T.toList ++ afterType
  typeEnd : Stops isNameChar afterType
  name : dropBlanks afterType = x.toList ++ afterName
  semicolon : dropBlanks afterName = ';' :: rest

/-- The declaration `T x;` stands at the front, blanks aside. -/
def Declares (T x : String) (text : List Char) : Prop :=
  ∃ afterType afterName rest, DeclarationAt T x text afterType afterName rest

/-- The declaration of a component that says no more than its type and its name. -/
def plainComponent (start : Nat) (T x : String) : Component :=
  { start, qualifiers := [], typeName := T, name := x, attributes := [], binding := none, aliasOf := none }

namespace DeclarationAt

variable {T x : String} {text afterType afterName rest : List Char} {bound : Nat}

theorem typeBlanks (h : DeclarationAt T x text afterType afterName rest) (hT : IsName T) :
    dropBlanks text = dropBlanks (T.toList ++ afterType) := by
  rw [h.type, dropBlanks_word hT.chars hT.ne_nil]

theorem nameBlanks (h : DeclarationAt T x text afterType afterName rest) (hx : IsName x) :
    dropBlanks afterType = dropBlanks (x.toList ++ afterName) := by
  rw [h.name, dropBlanks_word hx.chars hx.ne_nil]

theorem nameEnd (h : DeclarationAt T x text afterType afterName rest) : Stops isNameChar afterName := by
  have hstops : Stops isNameChar (dropBlanks afterName) := h.semicolon.symm ▸ stops_cons.2 rfl
  exact hstops.of_dropBlanks fun _ => isAtomChar_of_isNameChar

/-- Behind the type stands a name and no mark. -/
theorem stops_mark (h : DeclarationAt T x text afterType afterName rest) (hx : IsName x) :
    Stops (fun c => !isNameChar c) (dropBlanks afterType) := by
  rw [h.name]
  exact stops_mark_run hx.chars hx.ne_nil afterName

/-- The type and the name are read as they stand. -/
theorem reads_component (h : DeclarationAt T x text afterType afterName rest) (hT : IsName T) (hx : IsName x) :
    Reads (Grammar.component bound) text (fun d => ∃ start, d = plainComponent start T x) rest := by
  have hqualifier : Refuses qualifier (T.toList ++ afterType) := by
    refine refuses_firstOf fun p hp => ?_
    rcases List.mem_map.1 hp with ⟨q, -, rfl⟩
    refine Refuses.bind (refuses_word_name ?_ hT h.typeEnd)
    cases q <;> decide
  have hopen : ∀ {t : String}, t.toList.head?.any (· != ';') → Refuses (literal t) afterName := by
    intro t ht
    refine refuses_literal (Stops.not_leading ?_ ht)
    rw [h.semicolon]
    exact stops_cons.2 rfl
  have hsemicolon : Reads (literal ";") afterName (fun _ => True) rest := by
    refine Reads.blanks (reads_literal (t := ";") rfl) ?_
    rw [h.semicolon]
    rfl
  have hattributes : Reads (modification bound <|> pure []) afterName (· = []) afterName :=
    Refuses.reads_orElse (Refuses.bind (hopen rfl)) (.pure rfl)
  have hvalue : Reads (firstOf [do return (some (← aliasClause), none),
      do return (none, some (← binding bound)), pure (none, none)]) afterName (· = (none, none)) afterName :=
    Refuses.reads_orElse (Refuses.bind (Refuses.bind (hopen rfl)))
      (Refuses.reads_orElse (Refuses.bind (Refuses.bind (hopen rfl))) (Reads.orElse (.pure rfl)))
  have hname := (reads_name hx h.nameEnd).blanks (h.nameBlanks hx)
  refine Reads.blanks (reads_start.bind fun start _ => ?_) (h.typeBlanks hT)
  refine hqualifier.many.bind fun qualifiers hqualifiers => ?_
  refine (reads_name hT h.typeEnd).bind fun T' hT' => hname.bind fun x' hx' => ?_
  refine hattributes.bind fun attributes hattributes' => hvalue.bind fun value hvalue' => ?_
  rw [hvalue']
  refine hsemicolon.bind fun _ _ => .pure ⟨start, ?_⟩
  rw [hqualifiers, hT', hx', hattributes']
  rfl

/-! A word that the type begins with is read on its own where nothing asks for an end of the word. -/

theorem reads_beginning (h : DeclarationAt T x text afterType afterName rest) (hT : IsName T) {w : String}
    {U : List Char} (hU : T.toList = w.toList ++ U) :
    Reads (literal w) text (fun _ => True) (U ++ afterType) := by
  refine Reads.blanks (reads_literal (t := w) ?_) (by rw [h.typeBlanks hT, hU, List.append_assoc])
  rw [← List.append_assoc, ← hU, dropBlanks_word hT.chars hT.ne_nil]

theorem refuses_beginning (h : DeclarationAt T x text afterType afterName rest) (hT : IsName T) {w : String}
    (hw : ∀ c ∈ w.toList, isNameChar c) (hbegins : ¬ w.toList <+: T.toList) : Refuses (literal w) text := by
  exact (refuses_literal_run hw hT.chars hT.ne_nil hbegins h.typeEnd).blanks (h.typeBlanks hT)

/-- Behind a keyword that the type begins with a rest of the type is left. -/
theorem rest_ne_nil (hT : IsName T) {w : String} (hw : w ∈ keywords) {U : List Char}
    (hU : T.toList = w.toList ++ U) : U ≠ [] := by
  rintro rfl
  rw [List.append_nil, String.toList_inj] at hU
  exact hT.noKeyword (hU ▸ hw)

theorem rest_chars (hT : IsName T) {w U : List Char} (hU : T.toList = w ++ U) : ∀ c ∈ U, isNameChar c :=
  fun c hc => hT.chars c (hU ▸ List.mem_append_right w hc)

/-- Even if a word is read off the type, no name with a mark behind it follows. -/
theorem refuses_head (h : DeclarationAt T x text afterType afterName rest) (hT : IsName T) (hx : IsName x)
    {w t : String} (hw : w ∈ keywords) (ht : t.toList.head?.any (fun c => !isNameChar c)) {β : Type}
    {f : String → Parser β} :
    Refuses (literal w >>= fun _ => Grammar.name >>= fun n => literal t >>= fun _ => f n) text := by
  by_cases hbegins : w.toList <+: T.toList
  · rcases hbegins with ⟨U, hU⟩
    have hU := hU.symm
    have hchars := rest_chars hT hU
    have hne := rest_ne_nil hT hw hU
    refine (h.reads_beginning hT hU).refuses_bind fun _ _ => ?_
    by_cases hname : IsName (String.ofList U)
    · have hread := reads_name hname h.typeEnd
      rw [String.toList_ofList] at hread
      refine hread.refuses_bind fun n _ => Refuses.bind (refuses_literal ?_)
      exact (h.stops_mark hx).not_leading ht
    · refine Refuses.bind (refuses_name ?_)
      rwa [dropBlanks_word hchars hne, takeWhile_run hchars h.typeEnd]
  · exact (h.refuses_beginning hT (isNameChar_of_keyword hw) hbegins).bind

theorem refuses_typeDeclaration (h : DeclarationAt T x text afterType afterName rest) (hT : IsName T)
    (hx : IsName x) : Refuses (typeDeclaration bound) text :=
  reads_start.refuses_bind fun _ _ => h.refuses_head hT hx (by decide) (by decide)

theorem refuses_functionDeclaration (h : DeclarationAt T x text afterType afterName rest) (hT : IsName T)
    (hx : IsName x) : Refuses (functionDeclaration bound) text :=
  reads_start.refuses_bind fun _ _ => h.refuses_head hT hx (by decide) (by decide)

/-- The model does not end in front of a declaration. -/
theorem refuses_ending (h : DeclarationAt T x text afterType afterName rest) (hT : IsName T)
    (hx : IsName x) : Refuses ending text :=
  h.refuses_head hT hx (by decide) (by decide)

theorem refuses_initialHead (h : DeclarationAt T x text afterType afterName rest) (hT : IsName T)
    (hsection : ¬ "initialequation".toList <+: T.toList) {β : Type} {p : Parser β} :
    Refuses (literal "initial" >>= fun _ => literal "equation" >>= fun _ => p) text := by
  by_cases hbegins : "initial".toList <+: T.toList
  · rcases hbegins with ⟨U, hU⟩
    have hU := hU.symm
    have hchars := rest_chars hT hU
    have hne := rest_ne_nil hT (by decide) hU
    refine (h.reads_beginning hT hU).refuses_bind fun _ _ => Refuses.bind (refuses_literal fun hequation => ?_)
    rw [dropBlanks_word hchars hne,
      prefix_run_iff (isNameChar_of_keyword (by decide)) hchars h.typeEnd] at hequation
    refine hsection ?_
    rw [hU]
    exact (List.prefix_append_right_inj "initial".toList).2 hequation
  · exact (h.refuses_beginning hT (isNameChar_of_keyword (by decide)) hbegins).bind

/-- The declaration is read as it stands if its type opens no section. -/
theorem reads_element (h : DeclarationAt T x text afterType afterName rest) (hT : IsName T) (hx : IsName x)
    (hequation : ¬ "equation".toList <+: T.toList) (hinitial : ¬ "initialequation".toList <+: T.toList) :
    Reads (element bound) text (fun e => ∃ start, e = .component (plainComponent start T x)) rest := by
  have hcomponent : Reads (do return Element.component (← Grammar.component bound)) text
      (fun e => ∃ start, e = .component (plainComponent start T x)) rest := by
    refine (h.reads_component hT hx).bind fun d hd => .pure ?_
    rcases hd with ⟨start, rfl⟩
    exact ⟨start, rfl⟩
  have hhead := h.refuses_beginning hT (isNameChar_of_keyword (by decide)) hequation
  exact (Refuses.bind (h.refuses_typeDeclaration hT hx)).reads_orElse
    ((Refuses.bind (h.refuses_functionDeclaration hT hx)).reads_orElse
    ((h.refuses_initialHead hT hinitial).reads_orElse
    ((Refuses.bind hhead).reads_orElse (Reads.orElse hcomponent))))

/-- A type that begins with the word for equations is read as a section, whatever follows the word. -/
theorem element_equation (h : DeclarationAt T x text afterType afterName rest) (hT : IsName T) (hx : IsName x)
    (hequation : "equation".toList <+: T.toList) {c : Cursor} (hc : dropBlanks c.rest = dropBlanks text) :
    ∃ eqs c', element bound c = some (.equationSection eqs, c') := by
  rcases hequation with ⟨U, hU⟩
  have hinitial : ¬ "initialequation".toList <+: T.toList := by
    rw [← hU]
    rintro ⟨V, hV⟩
    cases hV
  rcases h.reads_beginning hT hU.symm c hc with ⟨_, c₁, hread, -, -⟩
  refine ⟨_, _, (orElse_eq_of_none (bind_eq_none (h.refuses_typeDeclaration hT hx c hc))).trans
    ((orElse_eq_of_none (bind_eq_none (h.refuses_functionDeclaration hT hx c hc))).trans
    ((orElse_eq_of_none (h.refuses_initialHead hT hinitial c hc)).trans
    (orElse_eq ((bind_eq hread).trans (bind_eq rfl)))))⟩

/-- The same for the words of an initial section. -/
theorem element_initialEquation (h : DeclarationAt T x text afterType afterName rest) (hT : IsName T)
    (hx : IsName x) (hinitial : "initialequation".toList <+: T.toList) {c : Cursor}
    (hc : dropBlanks c.rest = dropBlanks text) :
    ∃ eqs c', element bound c = some (.initialSection eqs, c') := by
  rcases hinitial with ⟨U, hU⟩
  have hwords : "initialequation".toList = "initial".toList ++ "equation".toList := by decide
  rw [hwords, List.append_assoc] at hU
  have hequation : Reads (literal "equation") ("equation".toList ++ U ++ afterType) (fun _ => True)
      (U ++ afterType) := by
    rw [List.append_assoc]
    exact reads_literal rfl
  rcases h.reads_beginning hT hU.symm c hc with ⟨_, c₁, hread, -, hc₁⟩
  rcases hequation c₁ hc₁ with ⟨_, c₂, hread', -, -⟩
  refine ⟨_, _, (orElse_eq_of_none (bind_eq_none (h.refuses_typeDeclaration hT hx c hc))).trans
    ((orElse_eq_of_none (bind_eq_none (h.refuses_functionDeclaration hT hx c hc))).trans
    (orElse_eq ((bind_eq hread).trans ((bind_eq hread').trans (bind_eq rfl)))))⟩

/-- Nothing goes on with an expression behind the type. -/
theorem ends_afterType (h : DeclarationAt T x text afterType afterName rest) (hx : IsName x) :
    Ends 0 afterType := by
  have hmark := h.stops_mark hx
  refine ⟨?_, hmark.imp fun c hopen => ?_, fun op _ => ?_⟩
  · have hpoint : Stops (· == '.') (dropBlanks afterType) := hmark.imp fun c hc => by
      rw [beq_iff_eq.1 hc]
      rfl
    intro c hc
    rw [isAtomChar, h.typeEnd c hc, Bool.false_or]
    exact hpoint.of_dropBlanks (fun a ha => by rw [isAtomChar, ha, Bool.or_true]) c hc
  · rw [Bool.or_eq_true, beq_iff_eq, beq_iff_eq] at hopen
    rcases hopen with rfl | rfl <;> rfl
  · by_cases hword : spelling op ∈ keywords
    · have hlevel : operatorLevel op < 2 := by
        cases op <;> first | decide | exact absurd hword (by decide)
      rw [operatorToken, if_pos hlevel]
      exact (refuses_word_name hword hx h.nameEnd).blanks (h.nameBlanks hx)
    · refine refuses_operatorToken (refuses_literal (hmark.not_leading ?_))
      cases op <;> first | rfl | exact absurd (by decide) hword

/-- No equation is read where a declaration stands: the type is a side, but no equality sign follows. -/
theorem refuses_equation (h : DeclarationAt T x text afterType afterName rest) (hT : IsName T) (hx : IsName x) :
    Refuses (equation bound) text := by
  have hend := h.ends_afterType hx
  have hbegins : Begins 5 (T.toList ++ afterType) := .name hT h.typeEnd
  have hsign := hbegins.stops_sign (Nat.le_refl 5)
  rw [← hbegins.dropBlanks_eq] at hsign
  have hnot := hbegins.refuses_not (by decide)
  have hequality : Refuses (literal "=") afterType := refuses_literal ((h.stops_mark hx).not_leading rfl)
  refine Refuses.blanks (reads_start.refuses_bind fun _ _ => ?_) (h.typeBlanks hT)
  cases bound with
  | zero => exact Refuses.bind (refuses_expressionOver refuses_failure hsign hnot)
  | succ bound =>
      have hfactor : Reads (factor (bound + 1) (bound + 1)) (T.toList ++ afterType)
          (Expression.name 0 T).SameTree afterType := reads_factor_name hT hend
      exact (reads_expressionOver_factor hfactor hsign hnot hend).refuses_bind fun _ _ => hequality.bind

end DeclarationAt

/-! ### Declarations of a model -/

/-- Behind the elements that are read before it, a declaration `T x;` is the next element of an accepted
    text, with the type and the name as they stand, unless the type begins with the words that open a
    section: then the words are read as the head of a section and the type is split. In either case a section
    of equations in front of the declaration ends there. -/
theorem parse_declaration {s : String} {text : Model} (h : parse s = .ok text) :
    ∃ elements c₀ c₁, text.ReadFrom s elements ∧
      head (.ofString s) = some ((text.start, text.name), c₀) ∧
      Each (fun e c c' => element s.length c = some (e, c')) elements c₀ c₁ ∧
      ∀ before after c T x, elements = before ++ after →
        Each (fun e c c' => element s.length c = some (e, c')) before c₀ c → IsName T → IsName x →
        Declares T x c.rest →
          equation s.length c = none ∧
          ("equation".toList <+: T.toList → ∃ eqs later, after = .equationSection eqs :: later) ∧
          ("initialequation".toList <+: T.toList → ∃ eqs later, after = .initialSection eqs :: later) ∧
          (¬ "equation".toList <+: T.toList → ¬ "initialequation".toList <+: T.toList →
            ∃ start later, after = .component (plainComponent start T x) :: later) := by
  rcases parse_elements h with ⟨elements, c₀, c₁, last, hread, hhead, heach, hending⟩
  refine ⟨elements, c₀, c₁, hread, hhead, heach, ?_⟩
  intro before after c T x hsplit hbefore hT hx hdeclares
  rcases hdeclares with ⟨afterType, afterName, rest, hat⟩
  subst hsplit
  cases hbefore.of_append heach with
  | nil =>
      rw [hat.refuses_ending hT hx _ rfl] at hending
      cases hending
  | @cons e later _ c' _ hnext hlater =>
      have hfound : ∀ {e' : Element} {c'' : Cursor}, element s.length c = some (e', c'') → e = e' := by
        intro e' c'' hread'
        rw [hnext] at hread'
        exact (Prod.mk.inj (Option.some.inj hread')).1
      refine ⟨hat.refuses_equation hT hx c rfl, fun hequation => ?_, fun hinitial => ?_,
        fun hequation hinitial => ?_⟩
      · rcases hat.element_equation hT hx hequation rfl with ⟨eqs, c'', hread'⟩
        exact ⟨eqs, later, by rw [hfound hread']⟩
      · rcases hat.element_initialEquation hT hx hinitial rfl with ⟨eqs, c'', hread'⟩
        exact ⟨eqs, later, by rw [hfound hread']⟩
      · rcases hat.reads_element hT hx hequation hinitial c rfl with ⟨e', c'', hread', ⟨start, rfl⟩, -⟩
        exact ⟨start, later, by rw [hfound hread']⟩

/-- A declaration in front of a section and one behind it. -/
def plainDeclarationText : String := "model m Voltage x; equation x = 1; Real y; end m;"

theorem parse_declaration_voltage :
    ∃ text elements start later, parse plainDeclarationText = .ok text ∧
      text.ReadFrom plainDeclarationText elements ∧
      elements = .component (plainComponent start "Voltage" "x") :: later := by
  have hok : (parse plainDeclarationText).toOption.isSome := by decide +kernel
  have hhead : head (.ofString plainDeclarationText) =
      some ((0, "m"), ⟨7, " Voltage x; equation x = 1; Real y; end m;".toList⟩) := by decide +kernel
  cases hparse : parse plainDeclarationText with
  | error failure =>
      rw [hparse] at hok
      cases hok
  | ok text =>
      rcases parse_declaration hparse with ⟨elements, c₀, c₁, hread, hstart, -, hnext⟩
      rw [hhead] at hstart
      obtain ⟨-, rfl⟩ := Prod.mk.inj (Option.some.inj hstart)
      have hdeclares : Declares "Voltage" "x" " Voltage x; equation x = 1; Real y; end m;".toList :=
        ⟨" x; equation x = 1; Real y; end m;".toList, "; equation x = 1; Real y; end m;".toList,
          " equation x = 1; Real y; end m;".toList, by decide, by decide, by decide, by decide⟩
      rcases (hnext [] elements _ "Voltage" "x" rfl (.nil _) (by decide) (by decide)
        hdeclares).2.2.2 (by decide) (by decide) with ⟨start, later, helements⟩
      exact ⟨text, elements, start, later, rfl, hread, helements⟩

/-- A declaration whose type begins with the word for equations. -/
def splitTypeText : String := "model m equationReal x; end m;"

/-- The type is split: what is declared is another type of the same name. -/
theorem parse_declaration_equationReal :
    ∃ text c, parse splitTypeText = .ok text ∧
      head (.ofString splitTypeText) = some ((text.start, text.name), c) ∧
      IsName "equationReal" ∧ IsName "x" ∧ Declares "equationReal" "x" c.rest ∧
      text.components.map (fun d => (d.typeName, d.name)) = [("Real", "x")] := by
  have hcomponents : (parse splitTypeText).toOption.map (fun text =>
      ((text.start, text.name), text.components.map fun d => (d.typeName, d.name))) =
      some ((0, "m"), [("Real", "x")]) := by decide +kernel
  have hhead : head (.ofString splitTypeText) = some ((0, "m"), ⟨7, " equationReal x; end m;".toList⟩) := by
    decide +kernel
  cases hparse : parse splitTypeText with
  | error failure =>
      rw [hparse] at hcomponents
      cases hcomponents
  | ok text =>
      rw [hparse] at hcomponents
      obtain ⟨hname, hmap⟩ := Prod.mk.inj (Option.some.inj hcomponents)
      refine ⟨text, _, rfl, hname ▸ hhead, by decide, by decide, ?_, hmap⟩
      exact ⟨" x; end m;".toList, "; end m;".toList, " end m;".toList, by decide, by decide,
        by decide, by decide⟩

end FlatDae.Source
