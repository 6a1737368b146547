/-
Module: FlatDae.Proofs.ExpressionReading
Purpose: What is written for an expression is read as this expression. Atoms are told apart by what they
  begin with, and only they lead back to the loosest level: in parentheses and in the arguments of calls,
  with a shorter text each time. So at every place of a text at which the grammar reads an expression, the
  text of an expression is read as the expression it was written for, if a token follows that closes it.
Main exports: readsLevel_factor, Closes, reads_written, Expression.written_readsBack
-/
import FlatDae.Proofs.OperatorReading

namespace FlatDae.Source

open FlatDae.Source.Grammar FlatDae.Source.Parser

/-! ### Atoms -/

section

variable {bound depth : Nat} {nested : Parser Expression} {text rest : List Char}

theorem refuses_call (h : Refuses Grammar.name text) : Refuses (call bound nested) text :=
  reads_start.refuses_bind fun _ _ => h.bind

theorem refuses_truth (h : ∀ w ∈ ["true", "false"], Refuses (word w) text) : Refuses truth text :=
  reads_start.refuses_bind fun _ _ => Refuses.orElse (h "true" (by decide)).bind (h "false" (by decide)).bind

theorem refuses_reference (h : Refuses Grammar.name text) : Refuses reference text :=
  reads_start.refuses_bind fun _ _ => h.bind

/-- A name that no argument list follows is no call. -/
theorem refuses_call_name {ℓ : Nat} {n : String} (hn : IsName n) (hend : Ends ℓ rest) :
    Refuses (call bound nested) (n.toList ++ rest) := by
  refine reads_start.refuses_bind fun _ _ => (reads_name hn hend.nameEnd).refuses_bind fun _ _ => ?_
  exact (refuses_literal (hend.call.not_leading rfl)).bind

/-- Where no atom character stands there is neither a name nor a number nor a truth value. -/
theorem refuses_atoms {c : Char} {cs : List Char} (hsolid : dropBlanks (c :: cs) = c :: cs)
    (hc : isAtomChar c = false) :
    Refuses Grammar.name (c :: cs) ∧ Refuses number (c :: cs) ∧ Refuses truth (c :: cs) := by
  rw [isAtomChar, Bool.or_eq_false_iff] at hc
  have hstops : Stops isNameChar (dropBlanks (c :: cs)) := hsolid.symm ▸ stops_cons.2 hc.1
  refine ⟨refuses_name_cons hsolid (.inl hc.1), refuses_number ?_, refuses_truth fun w hw => ?_⟩
  · rw [hsolid, stops_cons, Bool.or_eq_false_iff]
    refine ⟨Bool.eq_false_iff.2 fun hdigit => ?_, hc.2⟩
    rw [isNameChar_of_isDigit hdigit] at hc
    cases hc.1
  · refine (refuses_literal (hstops.not_leading ?_)).bind
    revert w
    decide

/-- Where neither an atom character nor a parenthesis stands there is no factor. -/
theorem refuses_factor {c : Char} {cs : List Char} (hsolid : dropBlanks (c :: cs) = c :: cs)
    (hc : isAtomChar c = false) (hparenthesis : c ≠ '(') : ∀ depth, Refuses (factor bound depth) (c :: cs)
  | 0 => refuses_failure
  | depth + 1 => by
      obtain ⟨hname, hnumber, htruth⟩ := refuses_atoms hsolid hc
      have hopen : Refuses (literal "(") (c :: cs) := by
        refine refuses_literal (Stops.not_leading (p := (· == '(')) (hsolid.symm ▸ stops_cons.2 ?_) rfl)
        exact beq_eq_false_iff_ne.2 hparenthesis
      exact (refuses_call hname).orElse (hnumber.orElse (htruth.orElse ((refuses_reference hname).orElse
        (Refuses.orElse hopen.bind refuses_failure))))

/-- Punctuation ends every expression. -/
theorem Ends.punctuation {c : Char} (hc : c ∈ [';', ',', ')']) (rest : List Char) : Ends 0 (c :: rest) := by
  simp only [List.mem_cons, List.not_mem_nil, or_false] at hc
  rcases hc with rfl | rfl | rfl <;>
    exact ⟨stops_cons.2 rfl, stops_cons.2 rfl,
      fun op _ => refuses_operatorToken (refuses_literal_spelling (stops_cons.2 rfl))⟩

theorem reads_index {ℓ : Nat} (output : Option Nat) (hend : Ends ℓ rest) :
    Reads (optional outputIndex) ((writtenIndex output).toList ++ rest) (· = output) rest := by
  cases output with
  | none =>
      refine Refuses.optional (Refuses.bind ?_)
      exact refuses_literal (hend.call.not_leading rfl)
  | some k =>
      have htext : (writtenIndex (some k)).toList ++ rest = '{' :: ((toString k).toList ++ '}' :: rest) := by
        simp [writtenIndex]
      rw [htext]
      refine (reads_outputIndex k).optional.imp fun output houtput => ?_
      rcases houtput with ⟨k', rfl, rfl⟩
      rfl

theorem Ends.further (es : List Expression) (rest : List Char) :
    Ends 0 ((writtenFurther es).toList ++ ')' :: rest) := by
  cases es with
  | nil => exact .punctuation (by decide) rest
  | cons e es =>
      rw [writtenFurther, String.toList_append, String.toList_append, List.append_assoc, List.append_assoc]
      exact .punctuation (by decide) _

/-- Arguments are read one after the other. -/
theorem reads_further (rest : List Char) (hnested : ReadsLevel 0 depth nested) {es : List Expression} {n : Nat}
    (hn : es.length ≤ n)
    (hes : ∀ e ∈ es, e.Writable ∧ e.DigitsReadBack ∧ e.written.length ≤ depth) :
    Reads (many n (literal "," *> nested)) ((writtenFurther es).toList ++ ')' :: rest)
      (fun es' => unplacedAll es' = unplacedAll es) (')' :: rest) := by
  induction es generalizing n with
  | nil =>
      have hcomma : Refuses (literal "," *> nested) (')' :: rest) :=
        Refuses.bind (refuses_literal (Stops.not_leading (p := (· == ',')) (stops_cons.2 rfl) rfl))
      exact hcomma.many.imp fun es' hes' => by rw [hes']
  | cons e es ih =>
      obtain ⟨he, hdigits, hlength⟩ := hes e List.mem_cons_self
      obtain ⟨n, rfl⟩ : ∃ n', n = n' + 1 := ⟨n - 1, by rw [List.length_cons] at hn; omega⟩
      have hread := hnested e he hdigits (by rwa [Expression.writtenAt_zero]) _ (Ends.further es rest)
      rw [Expression.writtenAt_zero] at hread
      have hcomma : Reads (literal ",")
          (',' :: ' ' :: (e.written.toList ++ ((writtenFurther es).toList ++ ')' :: rest)))
          (fun _ => True) (' ' :: (e.written.toList ++ ((writtenFurther es).toList ++ ')' :: rest))) :=
        reads_literal rfl
      have hitem := hcomma.bind fun _ _ => hread.blanks (dropBlanks_space _)
      have hmany := hitem.many
        (ih (Nat.le_of_succ_le_succ hn) fun e' he' => hes e' (List.mem_cons_of_mem e he'))
      rw [writtenFurther, String.toList_append, String.toList_append, List.append_assoc, List.append_assoc]
      refine hmany.imp fun es' hes' => ?_
      rcases hes' with ⟨e', es'', rfl, hsame, hfurther⟩
      rw [unplacedAll, unplacedAll, hsame, hfurther]

theorem reads_arguments (hnested : ReadsLevel 0 depth nested) (hrefuse : Refuses nested (')' :: rest))
    {args : List Expression} (hn : args.length ≤ bound + 1)
    (hargs : ∀ e ∈ args, e.Writable ∧ e.DigitsReadBack ∧ e.written.length ≤ depth) :
    Reads (separated bound nested <|> pure []) ((writtenArguments args).toList ++ ')' :: rest)
      (fun args' => unplacedAll args' = unplacedAll args) (')' :: rest) := by
  cases args with
  | nil => exact (Refuses.bind hrefuse).reads_orElse (.pure rfl)
  | cons e es =>
      obtain ⟨he, hdigits, hlength⟩ := hargs e List.mem_cons_self
      have hread := hnested e he hdigits (by rwa [Expression.writtenAt_zero]) _ (Ends.further es rest)
      rw [Expression.writtenAt_zero] at hread
      rw [writtenArguments_cons, String.toList_append, List.append_assoc]
      refine Reads.orElse (hread.bind fun e' hsame => ?_)
      have hfurther := reads_further rest hnested (Nat.le_of_succ_le_succ hn)
        fun e' he' => hargs e' (List.mem_cons_of_mem e he')
      exact hfurther.bind fun es' hes' => .pure (by rw [unplacedAll, unplacedAll, hsame, hes'])

/-- A number is read as a factor. -/
theorem reads_factor_number {start : Nat} {value : Float} {significand : Nat} {exponent : Int}
    (hvalue : Binary64.ofFloat value = .finite false significand exponent)
    (hdigits : (Expression.number start value).DigitsReadBack) {ℓ : Nat} (hend : Ends ℓ rest) :
    Reads (firstOf [call bound nested, number, truth, reference, parenthesised nested])
      ((Expression.number start value).written.toList ++ rest) (Expression.number start value).SameTree
      rest := by
  have hread := reads_number hvalue (hdigits value List.mem_cons_self) hend.atom
  rcases (Decimal.text_isMantissa hvalue).exists_cons with ⟨c, cs, hcs, hc⟩
  have hname : Refuses Grammar.name ((Decimal.text value).toList ++ rest) := by
    rw [hcs]
    exact refuses_name_cons (dropBlanks_nameChar (isNameChar_of_isDigit hc) _) (.inr hc)
  refine (refuses_call hname).reads_orElse (Reads.orElse (hread.imp fun e he => ?_))
  rcases he with ⟨offset, rfl⟩
  rfl

/-- No word is a number. -/
theorem refuses_number_word {w : List Char} (rest : List Char) (hchars : ∀ c ∈ w, isNameChar c)
    (hhead : ∃ c ∈ w.head?, c.isDigit = false) : Refuses number (w ++ rest) := by
  rcases hhead with ⟨c, hc, hdigit⟩
  rcases List.head?_eq_some_iff.1 hc with ⟨cs, rfl⟩
  refine refuses_number ?_
  have hchar := hchars c List.mem_cons_self
  rw [List.cons_append, dropBlanks_nameChar hchar, stops_cons, hdigit, Bool.false_or, beq_eq_false_iff_ne]
  rintro rfl
  exact absurd hchar (by decide)

theorem reads_truth {start : Nat} (value : Bool) (hrest : Stops isNameChar rest) :
    Reads truth ((Expression.truth start value).written.toList ++ rest) (Expression.truth start value).SameTree
      rest := by
  cases value with
  | true =>
      have hword : Reads (word "true") ("true".toList ++ rest) (fun _ => True) rest := reads_word rfl hrest
      exact reads_start.bind fun offset _ => Reads.orElse (hword.bind fun _ _ => .pure rfl)
  | false =>
      have hstops : Stops (· == 't') (dropBlanks ("false".toList ++ rest)) := stops_cons.2 rfl
      have hother := refuses_literal (hstops.not_leading (t := "true".toList) rfl)
      have hword : Reads (word "false") ("false".toList ++ rest) (fun _ => True) rest := reads_word rfl hrest
      exact reads_start.bind fun offset _ =>
        (Refuses.bind hother.bind).reads_orElse (hword.bind fun _ _ => .pure rfl)

/-- A truth value is read as a factor. -/
theorem reads_factor_truth {start : Nat} {value : Bool} {ℓ : Nat} (hend : Ends ℓ rest) :
    Reads (firstOf [call bound nested, number, truth, reference, parenthesised nested])
      ((Expression.truth start value).written.toList ++ rest) (Expression.truth start value).SameTree rest := by
  have hkeyword : (if value then "true" else "false") ∈ keywords := by
    cases value <;> decide
  have hhead : ∃ c ∈ (if value then "true" else "false").toList.head?, c.isDigit = false := by
    cases value with
    | true => exact ⟨'t', rfl, rfl⟩
    | false => exact ⟨'f', rfl, rfl⟩
  have hname := refuses_name_keyword hkeyword hend.nameEnd
  have hnumber := refuses_number_word rest (isNameChar_of_keyword hkeyword) hhead
  exact (refuses_call hname).reads_orElse (hnumber.reads_orElse (Reads.orElse (reads_truth value hend.nameEnd)))

/-- A name is read as a factor. -/
theorem reads_factor_name {start : Nat} {n : String} (hn : IsName n) {ℓ : Nat} (hend : Ends ℓ rest) :
    Reads (firstOf [call bound nested, number, truth, reference, parenthesised nested])
      ((Expression.name start n).written.toList ++ rest) (Expression.name start n).SameTree rest := by
  have hnumber := refuses_number_word rest hn.chars hn.head
  have htruth : Refuses truth (n.toList ++ rest) := by
    refine refuses_truth fun w hw => refuses_word_name ?_ hn hend.nameEnd
    revert w
    decide
  have hreference : Reads reference (n.toList ++ rest) (Expression.name start n).SameTree rest := by
    refine reads_start.bind fun offset _ => (reads_name hn hend.nameEnd).bind fun n' hn' => .pure ?_
    rw [hn']
    rfl
  exact (refuses_call_name hn hend).reads_orElse
    (hnumber.reads_orElse (htruth.reads_orElse (Reads.orElse hreference)))

/-- What stands in parentheses is read as a factor. -/
theorem reads_parenthesised (hnested : ReadsLevel 0 depth nested) {e : Expression} (he : e.Writable)
    (hdigits : e.DigitsReadBack) (hlength : e.written.length ≤ depth) :
    Reads (firstOf [call bound nested, number, truth, reference, parenthesised nested])
      ('(' :: (e.written.toList ++ ')' :: rest)) e.SameTree rest := by
  have hsolid : dropBlanks ('(' :: (e.written.toList ++ ')' :: rest)) =
      '(' :: (e.written.toList ++ ')' :: rest) := rfl
  obtain ⟨hname, hnumber, htruth⟩ := refuses_atoms hsolid rfl
  have hend : Ends 0 (')' :: rest) := .punctuation (by decide) rest
  have hread := hnested e he hdigits (by rwa [Expression.writtenAt_zero]) _ hend
  rw [Expression.writtenAt_zero] at hread
  have hopen : Reads (literal "(") ('(' :: (e.written.toList ++ ')' :: rest)) (fun _ => True)
      (e.written.toList ++ ')' :: rest) := reads_literal rfl
  have hclose : Reads (literal ")") (')' :: rest) (fun _ => True) rest := reads_literal rfl
  refine (refuses_call hname).reads_orElse (hnumber.reads_orElse (htruth.reads_orElse
    ((refuses_reference hname).reads_orElse (Reads.orElse ?_))))
  exact hopen.bind fun _ _ => hread.bind fun e' hsame => hclose.bind fun _ _ => .pure hsame

/-- Calls are read with their arguments and the output that they select. -/
theorem reads_call (hnested : ReadsLevel 0 depth nested) (hrefuse : ∀ rest, Refuses nested (')' :: rest))
    (hbound : depth ≤ bound) {start : Nat} {function : String} {args : List Expression} {output : Option Nat}
    (hname : IsName function) (hargs : ∀ a ∈ args, a.Writable)
    (hdigits : (Expression.call start function args output).DigitsReadBack)
    (hlength : (Expression.call start function args output).written.length ≤ depth + 1) {ℓ : Nat}
    (hend : Ends ℓ rest) :
    Reads (call bound nested) ((Expression.call start function args output).written.toList ++ rest)
      (Expression.call start function args output).SameTree rest := by
  have hshorter := Expression.length_call start function args output
  have hcount := length_writtenArguments args
  have hcommas : args.length ≤ bound + 1 := by omega
  have harguments := reads_arguments hnested (hrefuse ((writtenIndex output).toList ++ rest)) hcommas
    fun a ha =>
      ⟨hargs a ha, fun v hv => hdigits v (mem_numbersAll ha hv), by have := hcount.2 a ha; omega⟩
  have hopen : Reads (literal "(") ('(' :: ((writtenArguments args).toList ++
      ')' :: ((writtenIndex output).toList ++ rest))) (fun _ => True) _ := reads_literal rfl
  have hclose : Reads (literal ")") (')' :: ((writtenIndex output).toList ++ rest)) (fun _ => True) _ :=
    reads_literal rfl
  rw [Expression.written_call]
  refine reads_start.bind fun offset _ => (reads_name hname (stops_cons.2 rfl)).bind fun function' hfunction =>
    hopen.bind fun _ _ => harguments.bind fun args' hargs' => hclose.bind fun _ _ =>
    (reads_index output hend).bind fun output' houtput => .pure ?_
  rw [Expression.SameTree, Expression.unplaced, Expression.unplaced, hfunction, hargs', houtput]

/-- Factors are read: by the nesting of parentheses and calls. -/
theorem readsLevel_factor : ∀ depth, depth ≤ bound → ReadsLevel 7 depth (factor bound depth)
  | 0, _ => by
      intro e he hdigits hlength rest hend
      have hnil : (e.writtenAt 7).toList = [] :=
        List.eq_nil_of_length_eq_zero (by rw [String.length_toList]; omega)
      have hbegins := he.begins 7 (stops_nil isNameChar)
      rw [hnil] at hbegins
      exact absurd rfl hbegins.ne_nil
  | depth + 1, hbound => by
      have hnested := readsLevel_expressionOver (Nat.le_of_succ_le hbound)
        (readsLevel_factor depth (Nat.le_of_succ_le hbound))
      intro e he hdigits hlength rest hend
      rcases Nat.lt_or_ge e.level 7 with hlevel | hlevel
      · rw [Expression.length_writtenAt_of_lt hlevel] at hlength
        rw [Expression.writtenAt_of_lt hlevel, String.toList_append, String.toList_append, List.append_assoc,
          List.append_assoc]
        exact reads_parenthesised hnested he hdigits (by omega)
      · rw [Expression.writtenAt_of_le hlevel] at hlength ⊢
        cases he with
        | number hvalue => exact reads_factor_number hvalue hdigits hend
        | truth => exact reads_factor_truth hend
        | name hname => exact reads_factor_name hname hend
        | @call start function args output hname hargs houtput =>
            refine Reads.orElse (reads_call hnested (fun rest => ?_) (Nat.le_of_succ_le hbound) hname
              hargs hdigits hlength hend)
            have hfactor : Refuses (factor bound depth) (')' :: rest) :=
              refuses_factor rfl rfl (by decide) depth
            refine refuses_expressionOver hfactor (stops_cons.2 rfl) ?_
            exact Refuses.bind (refuses_literal (Stops.not_leading (p := isNameChar) (stops_cons.2 rfl) rfl))
        | @signed start sign operand hoperand =>
            exact absurd hlevel (Nat.not_le.2 sign.level_lt)
        | @binary start op left right hleft hright =>
            exact absurd hlevel (Nat.not_le.2 (operatorLevel_lt op))

end

/-! ### Whole expressions -/

/-- A token follows that closes an expression: a semicolon, a comma, a closing parenthesis, or the sign
    between the sides of an equation. -/
def Closes (rest : List Char) : Prop :=
  ∃ c tail, dropBlanks rest = c :: tail ∧ (c ∈ [';', ',', ')'] ∨ c = '=' ∧ Stops (· == '=') tail)

/-- An equality sign between two sides is no comparison. -/
theorem not_spelling_equality (op : BinaryOp) {tail : List Char} (h : Stops (· == '=') tail) :
    ¬ (spelling op).toList <+: '=' :: tail := by
  rintro ⟨rest, hrest⟩
  cases op with
  | eq =>
      obtain ⟨-, rfl⟩ := List.cons.inj hrest
      exact absurd (stops_cons.1 h) (by decide)
  | _ => cases hrest

/-- The sign between the sides of an equation ends both of them. -/
theorem Ends.equality {tail : List Char} (h : Stops (· == '=') tail) : Ends 0 ('=' :: tail) :=
  ⟨stops_cons.2 rfl, stops_cons.2 rfl,
    fun op _ => refuses_operatorToken (refuses_literal (not_spelling_equality op h))⟩

/-- What ends an expression ends it behind blanks as well. -/
theorem Ends.of_dropBlanks {ℓ : Nat} {rest : List Char} (h : Ends ℓ (dropBlanks rest)) : Ends ℓ rest where
  atom := h.atom.of_dropBlanks fun _ hc => hc
  call := (dropBlanks_dropBlanks rest).symm ▸ h.call
  operator op hop := (h.operator op hop).blanks (dropBlanks_dropBlanks rest).symm

theorem Closes.ends {rest : List Char} (h : Closes rest) : Ends 0 rest := by
  rcases h with ⟨c, tail, hrest, hc | ⟨rfl, htail⟩⟩
  · exact .of_dropBlanks (hrest.symm ▸ .punctuation hc tail)
  · exact .of_dropBlanks (hrest.symm ▸ .equality htail)

mutual

theorem outputsFit_unplaced : ∀ e : Expression, e.unplaced.outputsFit = e.outputsFit
  | .number _ _ => rfl
  | .truth _ _ => rfl
  | .name _ _ => rfl
  | .signed _ _ operand => outputsFit_unplaced operand
  | .binary _ _ left right => by
      rw [Expression.unplaced, Expression.outputsFit, Expression.outputsFit, outputsFit_unplaced left,
        outputsFit_unplaced right]
  | .call _ _ args output => by
      rw [Expression.unplaced, Expression.outputsFit, Expression.outputsFit, outputsFitAll_unplacedAll args]

theorem outputsFitAll_unplacedAll : ∀ es : List Expression, outputsFitAll (unplacedAll es) = outputsFitAll es
  | [] => rfl
  | e :: es => by
      rw [unplacedAll, outputsFitAll, outputsFitAll, outputsFit_unplaced e, outputsFitAll_unplacedAll es]

end

theorem outputsFitAll_of_forall {es : List Expression} (h : ∀ e ∈ es, e.outputsFit) : outputsFitAll es := by
  induction es with
  | nil => rfl
  | cons e es ih =>
      rw [outputsFitAll, h e List.mem_cons_self, ih fun e' he' => h e' (List.mem_cons_of_mem e he')]
      rfl

/-- The outputs of what can be written fit. -/
theorem Expression.Writable.outputsFit {e : Expression} (he : e.Writable) : e.outputsFit := by
  induction he with
  | number hvalue => rfl
  | truth => rfl
  | name hname => rfl
  | signed hoperand ih => exact ih
  | binary hleft hright ihleft ihright =>
      rw [Expression.outputsFit, ihleft, ihright]
      rfl
  | @call start function args output hname hargs houtput ih =>
      rw [Expression.outputsFit, outputsFitAll_of_forall ih, Bool.true_and, Option.all_eq_true]
      exact fun k hk => decide_eq_true (houtput k hk)

/-- The text of an expression is read as this expression where at most `depth` characters are left. -/
theorem reads_written {bound depth : Nat} {e : Expression} (he : e.Writable) (hdigits : e.DigitsReadBack)
    (hlength : e.written.length ≤ depth) (hdepth : depth ≤ bound) {rest : List Char} (hrest : Ends 0 rest) :
    Reads (expressionOver bound (factor bound depth)) (e.written.toList ++ rest) e.SameTree rest := by
  have hread := readsLevel_expressionOver hdepth (readsLevel_factor depth hdepth) e he hdigits
    (by rwa [Expression.writtenAt_zero]) rest hrest
  rwa [Expression.writtenAt_zero] at hread

/-- Wherever the text of an expression stands in a text `s` and a token follows that closes it, the grammar
    reads this expression, with other places only, and goes on behind it. This is so for the expressions of
    declarations and equations, and for those in parentheses and calls: every parenthesis that is open takes
    a level of nesting and at least one character. -/
theorem Expression.written_readsBack {e : Expression} (he : e.Writable) (hdigits : e.DigitsReadBack)
    {s : String} {c : Cursor} (hc : c.rest <:+ s.toList) {rest : List Char}
    (htext : dropBlanks c.rest = e.written.toList ++ rest) (hrest : Closes rest) :
    (∃ e' c', expression s.length c = some (e', c') ∧ e'.unplaced = e.unplaced ∧ e'.outputsFit ∧
      dropBlanks c'.rest = dropBlanks rest) ∧
    ∀ depth, c.rest.length ≤ depth → depth ≤ s.length →
      ∃ e' c', expressionOver s.length (factor s.length depth) c = some (e', c') ∧ e'.unplaced = e.unplaced ∧
        e'.outputsFit ∧ dropBlanks c'.rest = dropBlanks rest := by
  have hnested : ∀ depth, c.rest.length ≤ depth → depth ≤ s.length →
      ∃ e' c', expressionOver s.length (factor s.length depth) c = some (e', c') ∧ e'.unplaced = e.unplaced ∧
        e'.outputsFit ∧ dropBlanks c'.rest = dropBlanks rest := by
    intro depth hleft hdepth
    have hlength : e.written.length ≤ c.rest.length := by
      have hdrop := length_dropBlanks_le c.rest
      rw [htext, List.length_append, String.length_toList] at hdrop
      omega
    have hsolid : dropBlanks c.rest = dropBlanks (e.written.toList ++ rest) := by
      rw [← htext, dropBlanks_dropBlanks]
    rcases reads_written he hdigits (hlength.trans hleft) hdepth hrest.ends c hsolid with
      ⟨e', c', hread, hsame, hrest'⟩
    refine ⟨e', c', hread, hsame, ?_, hrest'⟩
    rw [← outputsFit_unplaced, hsame, outputsFit_unplaced]
    exact he.outputsFit
  have hs : c.rest.length ≤ s.length := by
    rw [← String.length_toList]
    exact hc.length_le
  exact ⟨hnested s.length hs (Nat.le_refl _), hnested⟩

/-- A comparison with signs, nested operations and a call. -/
def nestedComparison : Expression :=
  .binary 0 .and
    (.signed 0 .not (.binary 0 .lt (.name 0 "a") (.signed 0 .minus (.binary 0 .mul (.name 0 "b")
      (.binary 0 .pow (.binary 0 .add (.name 0 "c") (.number 0 2.5))
        (.call 0 "f" [.binary 0 .or (.name 0 "x") (.name 0 "y"), .number 0 1.0] (some 2)))))))
    (.truth 0 true)

/-- The comparison as one side of an equation. -/
def nestedComparisonText : String :=
  "model m equation p = not a < - b * (c + 2.5) ^ f(x or y, 1)\x7b2\x7d and true; end m;"

theorem nestedComparison_writable : nestedComparison.Writable := by
  refine .binary (.signed (.binary (.name (by decide)) (.signed (.binary (.name (by decide)) (.binary
    (.binary (.name (by decide)) (.number rfl)) (.call (by decide) (fun a ha => ?_) (by decide))))))) .truth
  simp only [List.mem_cons, List.not_mem_nil, or_false] at ha
  rcases ha with rfl | rfl
  · exact .binary (.name (by decide)) (.name (by decide))
  · exact .number rfl

theorem Expression.written_readsBack_nestedComparison :
    nestedComparison.written = "not a < - b * (c + 2.5) ^ f(x or y, 1)\x7b2\x7d and true" ∧
      ∃ e' c', expression nestedComparisonText.length ⟨20, nestedComparisonText.toList.drop 20⟩ =
          some (e', c') ∧
        e'.unplaced = nestedComparison.unplaced ∧ dropBlanks c'.rest = "; end m;".toList := by
  have hwritten : nestedComparison.written = "not a < - b * (c + 2.5) ^ f(x or y, 1)\x7b2\x7d and true" := by
    decide +kernel
  have hdigits : ∀ v ∈ nestedComparison.numbers, Decimal.read? (Decimal.text v) = some v := by
    decide +kernel
  have htext : dropBlanks (nestedComparisonText.toList.drop 20) =
      nestedComparison.written.toList ++ "; end m;".toList := by
    rw [hwritten]
    decide +kernel
  have hcloses : Closes "; end m;".toList := ⟨';', " end m;".toList, by decide, .inl (by decide)⟩
  have hplace : (Cursor.mk 20 (nestedComparisonText.toList.drop 20)).rest <:+ nestedComparisonText.toList :=
    List.drop_suffix 20 _
  rcases (Expression.written_readsBack nestedComparison_writable hdigits hplace htext hcloses).1 with
    ⟨e', c', hread, hsame, -, hrest⟩
  exact ⟨hwritten, e', c', hread, hsame, hrest.trans (by decide)⟩

end FlatDae.Source
