/-
Module: FlatDae.Proofs.PrintedExpressions
Purpose: Two expressions of one text are one tree. The first characters of a text say of which kind the shape
  on top is: a run of the characters of names and numbers is a word or, in front of a parenthesis, applied
  to something, and behind a parenthesis a minus is a negation unless a number and an operator follow. From
  there on the text is taken apart from left to right: behind no expression there stands what could belong
  to it.
Main exports: Expr.Begins, Expr.opening, Expr.Laid.opening_layout, Expr.Delimited, Expr.Laid.append_inj,
  Expr.delimited, Expr.SameTree.print_eq, Expr.print_eq_iff
-/
import FlatDae.Proofs.ExpressionLayout

namespace FlatDae.Expr

open Source (isAtomChar Stops stops_nil stops_cons takeWhile_run dropWhile_run)

/-! ### What a text begins with -/

/-- How the text of an expression begins. -/
inductive Begins : List Char → Prop where
  | word {w : List Char} (hw : IsRun w) : Begins w
  | negative {w : List Char} (hw : IsRun w) : Begins ('-' :: w)
  | applied {w : List Char} (hw : IsRun w) (cs : List Char) : Begins (w ++ '(' :: cs)
  | parenthesis (cs : List Char) : Begins ('(' :: cs)

theorem Laid.begins {s : Shape} {cs : List Expr} (h : Laid s cs) :
    Begins (s.layout (cs.map fun c => c.print.toList)) := by
  cases h with
  | word hw => exact .word hw
  | negative hw => exact .negative hw
  | applied hw => exact .applied hw _
  | marked => exact .parenthesis _
  | infixed => exact .parenthesis _

theorem begins_print {e : Expr} (he : e.WellNamed) : Begins e.print.toList := by
  rw [print_layout]
  exact (laid he).begins

/-- What the first characters of a text tell of the shape. -/
inductive Opening where
  | word (text : List Char)
  | applied (name : List Char)
  | prefixed (mark : Char)
  | infixed

def Shape.opening : Shape → Opening
  | .word text => .word text
  | .applied name _ => .applied name
  | .prefixed mark => .prefixed mark
  | .infixed _ => .infixed

/-- Whether a minus in front of the text belongs to a number that is the left operand of an operator. -/
def numberFollows (text : List Char) : Bool :=
  !(text.takeWhile isAtomChar).isEmpty &&
    (text.dropWhile isAtomChar).head?.all fun c => c != '(' && c != ')'

/-- What stands behind a parenthesis at the front of a text. -/
def enclosedOpening : List Char → Opening
  | '-' :: text => if numberFollows text then .infixed else .prefixed '-'
  | '!' :: _ => .prefixed '!'
  | _ => .infixed

/-- What stands at the front of a text. -/
def opening : List Char → Opening
  | '(' :: text => enclosedOpening text
  | '-' :: text => .word ('-' :: text.takeWhile isAtomChar)
  | text =>
    if (text.dropWhile isAtomChar).head? = some '(' then .applied (text.takeWhile isAtomChar)
    else .word (text.takeWhile isAtomChar)

theorem opening_run {w rest : List Char} (hw : IsRun w) (hrest : Stops isAtomChar rest) :
    opening (w ++ rest) = if rest.head? = some '(' then .applied w else .word w := by
  have htake := takeWhile_run hw.atoms hrest
  have hdrop := dropWhile_run hw.atoms hrest
  rcases hw.exists_cons with ⟨c, cs, rfl, hc⟩
  rw [List.cons_append, opening, ← List.cons_append, htake, hdrop]
  · rintro text heq
    cases heq
    cases hc
  · rintro text heq
    cases heq
    cases hc

/-- Characters that could belong to what stands in front of them. -/
def continues (c : Char) : Bool := isAtomChar c || c == '(' || c == '{'

theorem not_continues {c : Char} (h : continues c = false) : isAtomChar c = false ∧ c ≠ '(' ∧ c ≠ '{' := by
  simpa [continues, and_assoc] using h

theorem stops_atom {rest : List Char} (h : Stops continues rest) : Stops isAtomChar rest :=
  h.imp fun c hc => by rw [continues, hc]; rfl

theorem head?_ne_parenthesis {rest : List Char} (h : Stops continues rest) : rest.head? ≠ some '(' :=
  fun hhead => absurd (h '(' hhead) (by decide)

theorem numberFollows_run {w rest : List Char} (hw : IsRun w) (hrest : Stops isAtomChar rest) :
    numberFollows (w ++ rest) = rest.head?.all fun c => c != '(' && c != ')' := by
  rw [numberFollows, takeWhile_run hw.atoms hrest, dropWhile_run hw.atoms hrest,
    List.isEmpty_eq_false_iff.2 hw.ne_nil, Bool.not_false, Bool.true_and]

theorem numberFollows_stop {text : List Char} (h : Stops isAtomChar text) : numberFollows text = false := by
  have hnone : ∀ c ∈ ([] : List Char), isAtomChar c := fun _ hc => nomatch hc
  have htake : text.takeWhile isAtomChar = [] := takeWhile_run hnone h
  rw [numberFollows, htake]
  rfl

/-- A parenthesis closes behind the operand of a negation. -/
theorem numberFollows_operand {text : List Char} (h : Begins text) (rest : List Char) :
    numberFollows (text ++ ')' :: rest) = false := by
  cases h with
  | word hw => exact numberFollows_run hw (stops_cons.2 rfl)
  | negative => exact numberFollows_stop (stops_cons.2 rfl)
  | applied hw =>
      rw [List.append_assoc]
      exact numberFollows_run hw (stops_cons.2 rfl)
  | parenthesis => exact numberFollows_stop (stops_cons.2 rfl)

theorem enclosedOpening_atom {c : Char} (hc : isAtomChar c) (text : List Char) :
    enclosedOpening (c :: text) = .infixed := by
  rw [enclosedOpening]
  · rintro rest heq
    cases heq
    cases hc
  · rintro rest heq
    cases heq
    cases hc

/-- An operator follows its left operand. -/
theorem enclosedOpening_operand {text : List Char} (h : Begins text) {c : Char}
    (hc : continues c = false) (hclose : c ≠ ')') (rest : List Char) :
    enclosedOpening (text ++ c :: rest) = .infixed := by
  rcases not_continues hc with ⟨hatom, hopen, -⟩
  cases h with
  | word hw =>
      rcases hw.exists_cons with ⟨d, ds, rfl, hd⟩
      exact enclosedOpening_atom hd _
  | negative hw =>
      rw [List.cons_append, enclosedOpening, numberFollows_run hw (stops_cons.2 hatom), if_pos]
      simp [hopen, hclose]
  | applied hw =>
      rcases hw.exists_cons with ⟨d, ds, rfl, hd⟩
      exact enclosedOpening_atom hd _
  | parenthesis => rfl

theorem symbol_cons (op : BinaryOp) :
    ∃ c cs, op.symbol.toList = c :: cs ∧ continues c = false ∧ c ≠ ')' := by
  cases op <;> exact ⟨_, _, rfl, rfl, by decide⟩

/-- The first characters of a node's text tell of its shape. -/
theorem Laid.opening_layout {s : Shape} {cs : List Expr} (h : Laid s cs)
    (hcs : ∀ c ∈ cs, Begins c.print.toList) {rest : List Char} (hrest : Stops continues rest) :
    opening (s.layout (cs.map fun c => c.print.toList) ++ rest) = s.opening := by
  cases h with
  | word hw =>
      exact (opening_run hw (stops_atom hrest)).trans (if_neg (head?_ne_parenthesis hrest))
  | @negative w hw =>
      exact congrArg (fun w => Opening.word ('-' :: w)) (takeWhile_run hw.atoms (stops_atom hrest))
  | applied hw =>
      simp only [Shape.layout, List.append_assoc]
      exact opening_run hw (stops_cons.2 rfl)
  | marked hmark c =>
      simp only [Shape.layout, List.map_cons, List.map_nil, List.cons_append, List.append_assoc,
        List.nil_append]
      rcases hmark with rfl | rfl
      · have hfollows := numberFollows_operand (hcs c List.mem_cons_self) rest
        exact if_neg (Bool.eq_false_iff.1 hfollows)
      · rfl
  | infixed op l r =>
      rcases symbol_cons op with ⟨c, symbol, hsymbol, hc, hclose⟩
      simp only [Shape.layout, List.map_cons, List.map_nil, List.cons_append, List.append_assoc, hsymbol]
      exact enclosedOpening_operand (hcs l List.mem_cons_self) hc hclose _

/-- The first character of an expression is one of a name or a number, a minus or a parenthesis. -/
theorem Begins.stops {text : List Char} (h : Begins text) {p : Char → Bool}
    (hatom : ∀ c, isAtomChar c → p c = false) (hminus : p '-' = false) (hopen : p '(' = false)
    (rest : List Char) : Stops p (text ++ rest) := by
  cases h with
  | word hw =>
      rcases hw.exists_cons with ⟨c, cs, rfl, hc⟩
      exact stops_cons.2 (hatom c hc)
  | negative => exact stops_cons.2 hminus
  | applied hw =>
      rcases hw.exists_cons with ⟨c, cs, rfl, hc⟩
      exact stops_cons.2 (hatom c hc)
  | parenthesis => exact stops_cons.2 hopen

/-! ### Taking a text apart -/

/-- The characters of operators, but for the minus, which an operand may begin with. -/
def isMark (c : Char) : Bool := "+*/^=<>&|".toList.contains c

theorem not_isMark_of_isAtomChar {c : Char} (hc : isAtomChar c) : isMark c = false := by
  refine Bool.eq_false_iff.2 fun hmark => ?_
  have hall : "+*/^=<>&|".toList.all fun d => !isAtomChar d := rfl
  have hnot := List.all_eq_true.1 hall c (List.contains_iff_mem.1 hmark)
  rw [hc] at hnot
  cases hnot

theorem symbol_marks (op : BinaryOp) : op = .sub ∨ ∀ c ∈ op.symbol.toList, isMark c := by
  cases op with
  | sub => exact Or.inl rfl
  | _ => exact Or.inr (List.all_eq_true.1 rfl)

theorem symbol_injective : Function.Injective BinaryOp.symbol := by
  have hinverse (op : BinaryOp) : BinaryOp.ofSymbol? op.symbol = some op := by cases op <;> rfl
  intro op op' h
  have hsome := congrArg BinaryOp.ofSymbol? h
  rw [hinverse, hinverse] at hsome
  exact Option.some.inj hsome

theorem minus_ne_marks {op : BinaryOp} (hop : ∀ c ∈ op.symbol.toList, isMark c) (t t' : List Char) :
    '-' :: t ≠ op.symbol.toList ++ t' := by
  rcases symbol_cons op with ⟨c, cs, hsymbol, -⟩
  intro h
  rw [hsymbol] at h hop
  cases h
  exact absurd (hop '-' List.mem_cons_self) (by decide)

/-- An operator ends where its marks do. -/
theorem symbol_append_inj {op op' : BinaryOp} {t t' : List Char} (ht : Stops isMark t)
    (ht' : Stops isMark t') (h : op.symbol.toList ++ t = op'.symbol.toList ++ t') : op = op' ∧ t = t' := by
  suffices hop : op = op' by
    subst hop
    exact ⟨rfl, List.append_cancel_left h⟩
  rcases symbol_marks op with rfl | hmarks
  · rcases symbol_marks op' with rfl | hmarks'
    · rfl
    · exact absurd h (minus_ne_marks hmarks' _ _)
  · rcases symbol_marks op' with rfl | hmarks'
    · exact absurd h.symm (minus_ne_marks hmarks _ _)
    · have hrun := congrArg (List.takeWhile isMark) h
      rw [takeWhile_run hmarks ht, takeWhile_run hmarks' ht'] at hrun
      exact symbol_injective (String.toList_inj.1 hrun)

/-- An output ends at its brace, and where there is none the text does not go on with one. -/
theorem outputText_append_inj {o o' : Option Nat} {t t' : List Char} (ht : Stops continues t)
    (ht' : Stops continues t') (h : outputText o ++ t = outputText o' ++ t') : o = o' ∧ t = t' := by
  have hbrace {u : List Char} (hu : Stops continues u) (v : List Char) : u ≠ '{' :: v := by
    rintro rfl
    exact absurd (stops_cons.1 hu) (by decide)
  cases o with
  | none =>
      cases o' with
      | none => exact ⟨rfl, h⟩
      | some k' => exact absurd h (hbrace ht _)
  | some k =>
      cases o' with
      | none => exact absurd h.symm (hbrace ht' _)
      | some k' =>
          simp only [outputText, List.cons_append, List.append_assoc, List.nil_append, List.cons.injEq,
            true_and] at h
          have hdigits (n : Nat) (u : List Char) :
              ((toString n).toList ++ '}' :: u).takeWhile Char.isDigit = (toString n).toList :=
            takeWhile_run (fun _ hc => isDigit_of_mem_toString hc) (stops_cons.2 rfl)
          have hk := congrArg (fun cs => Decimal.natOfDigits (cs.takeWhile Char.isDigit)) h
          simp only [hdigits, Decimal.natOfDigits_toString] at hk
          subst hk
          exact ⟨rfl, List.tail_eq_of_cons_eq (List.append_cancel_left h)⟩

/-- The text of the expression cannot be continued to that of another one. -/
def Delimited (a : Expr) : Prop :=
  ∀ b : Expr, b.WellNamed → ∀ {t t' : List Char}, Stops continues t → Stops continues t' →
    a.print.toList ++ t = b.print.toList ++ t' → SameTree a b ∧ t = t'

theorem stops_furtherTexts (ts : List (List Char)) (t : List Char) :
    Stops continues (furtherTexts ts ++ ')' :: t) := by
  cases ts with
  | nil => exact stops_cons.2 rfl
  | cons => exact stops_cons.2 rfl

theorem furtherTexts_append_inj {as bs : List Expr} (has : ∀ a ∈ as, a.Delimited)
    (hbs : ∀ b ∈ bs, b.WellNamed) {t t' : List Char}
    (h : furtherTexts (as.map fun e => e.print.toList) ++ ')' :: t =
      furtherTexts (bs.map fun e => e.print.toList) ++ ')' :: t') :
    List.Forall₂ SameTree as bs ∧ t = t' := by
  induction as generalizing bs with
  | nil =>
      cases bs with
      | nil => exact ⟨.nil, List.tail_eq_of_cons_eq h⟩
      | cons b bs => cases h
  | cons a as ih =>
      cases bs with
      | nil => cases h
      | cons b bs =>
          simp only [List.map_cons, furtherTexts, List.cons_append, List.append_assoc, List.cons.injEq,
            true_and] at h
          rcases has a List.mem_cons_self b (hbs b List.mem_cons_self) (stops_furtherTexts _ _)
            (stops_furtherTexts _ _) h with ⟨hfirst, hfurther⟩
          rcases ih (fun a' ha' => has a' (List.mem_cons_of_mem _ ha'))
            (fun b' hb' => hbs b' (List.mem_cons_of_mem _ hb')) hfurther with ⟨hall, ht⟩
          exact ⟨.cons hfirst hall, ht⟩

theorem listedTexts_append_inj {as bs : List Expr} (has : ∀ a ∈ as, a.WellNamed ∧ a.Delimited)
    (hbs : ∀ b ∈ bs, b.WellNamed) {t t' : List Char}
    (h : listedTexts (as.map fun e => e.print.toList) ++ ')' :: t =
      listedTexts (bs.map fun e => e.print.toList) ++ ')' :: t') :
    List.Forall₂ SameTree as bs ∧ t = t' := by
  have hclose {e : Expr} (he : e.WellNamed) (u v : List Char) : e.print.toList ++ u ≠ ')' :: v := by
    have hstops := (begins_print he).stops (p := (· == ')')) (fun c hc => ?_) rfl rfl u
    · intro heq
      rw [heq] at hstops
      exact absurd (stops_cons.1 hstops) (by decide)
    · refine beq_eq_false_iff_ne.2 fun heq => ?_
      rw [heq] at hc
      cases hc
  cases as with
  | nil =>
      cases bs with
      | nil => exact ⟨.nil, List.tail_eq_of_cons_eq h⟩
      | cons b bs =>
          simp only [List.map_cons, listedTexts, List.append_assoc] at h
          exact absurd h.symm (hclose (hbs b List.mem_cons_self) _ _)
  | cons a as =>
      cases bs with
      | nil =>
          simp only [List.map_cons, listedTexts, List.append_assoc] at h
          exact absurd h (hclose (has a List.mem_cons_self).1 _ _)
      | cons b bs =>
          refine furtherTexts_append_inj (fun a' ha' => (has a' ha').2) hbs ?_
          simp only [List.map_cons, listedTexts, furtherTexts, List.cons_append] at h ⊢
          rw [h]

/-- Texts that begin alike have one shape and, if the operands are delimited, the same operands. -/
theorem Laid.append_inj {s s' : Shape} {as bs : List Expr} (hs : Laid s as) (hs' : Laid s' bs)
    (has : ∀ a ∈ as, a.WellNamed ∧ a.Delimited) (hbs : ∀ b ∈ bs, b.WellNamed)
    (hopening : s.opening = s'.opening) {t t' : List Char} (ht : Stops continues t)
    (ht' : Stops continues t')
    (h : s.layout (as.map fun e => e.print.toList) ++ t =
      s'.layout (bs.map fun e => e.print.toList) ++ t') :
    s = s' ∧ List.Forall₂ SameTree as bs ∧ t = t' := by
  -- an operand in parentheses ends at the closing one
  have hoperand {c d : Expr} (hc : c.WellNamed ∧ c.Delimited) (hd : d.WellNamed)
      (h : c.print.toList ++ ')' :: t = d.print.toList ++ ')' :: t') : SameTree c d ∧ t = t' := by
    rcases hc.2 d hd (stops_cons.2 rfl) (stops_cons.2 rfl) h with ⟨hsame, htail⟩
    exact ⟨hsame, List.tail_eq_of_cons_eq htail⟩
  cases hs with
  | word | negative =>
      cases hs' with
      | word | negative =>
          cases hopening
          exact ⟨rfl, .nil, List.append_cancel_left h⟩
      | _ => cases hopening
  | applied _ output =>
      cases hs' with
      | applied _ output' =>
          cases hopening
          simp only [Shape.layout, List.append_assoc, List.cons_append] at h
          rcases listedTexts_append_inj has hbs (List.tail_eq_of_cons_eq (List.append_cancel_left h)) with
            ⟨hsame, hbehind⟩
          rcases outputText_append_inj ht ht' hbehind with ⟨rfl, htail⟩
          exact ⟨rfl, hsame, htail⟩
      | _ => cases hopening
  | marked _ c =>
      cases hs' with
      | marked _ d =>
          cases hopening
          simp only [Shape.layout, List.map_cons, List.map_nil, List.cons_append, List.append_assoc,
            List.nil_append, List.cons.injEq, true_and] at h
          rcases hoperand (has c List.mem_cons_self) (hbs d List.mem_cons_self) h with ⟨hsame, htail⟩
          exact ⟨rfl, .cons hsame .nil, htail⟩
      | _ => cases hopening
  | infixed op l r =>
      cases hs' with
      | infixed op' l' r' =>
          simp only [Shape.layout, List.map_cons, List.map_nil, List.cons_append, List.append_assoc,
            List.nil_append, List.cons.injEq, true_and] at h
          have hsymbol (o : BinaryOp) (u : List Char) : Stops continues (o.symbol.toList ++ u) := by
            rcases symbol_cons o with ⟨c, cs, hsymbol, hc, -⟩
            rw [hsymbol]
            exact stops_cons.2 hc
          have hmark {e : Expr} (he : e.WellNamed) (u : List Char) : Stops isMark (e.print.toList ++ u) :=
            (begins_print he).stops (fun _ => not_isMark_of_isAtomChar) rfl rfl u
          have hr := has r (List.mem_cons_of_mem _ List.mem_cons_self)
          have hr' := hbs r' (List.mem_cons_of_mem _ List.mem_cons_self)
          rcases (has l List.mem_cons_self).2 l' (hbs l' List.mem_cons_self) (hsymbol _ _) (hsymbol _ _) h with
            ⟨hleft, hbehind⟩
          rcases symbol_append_inj (hmark hr.1 _) (hmark hr' _) hbehind with ⟨rfl, hoperands⟩
          rcases hoperand hr hr' hoperands with ⟨hright, htail⟩
          exact ⟨rfl, .cons hleft (.cons hright .nil), htail⟩
      | _ => cases hopening

/-- If the operands of an expression are delimited, so is the expression. -/
theorem delimited_step {a : Expr} (ha : a.WellNamed) (hchildren : ∀ c ∈ a.children, c.Delimited) :
    a.Delimited := by
  intro b hb t t' ht ht' h
  have hbegins {e : Expr} (he : e.WellNamed) : ∀ c ∈ e.children, Begins c.print.toList :=
    fun _ hc => begins_print (he.child hc)
  rw [print_layout, print_layout b] at h
  have hopening : a.shape.opening = b.shape.opening := by
    rw [← (laid ha).opening_layout (hbegins ha) ht, h, (laid hb).opening_layout (hbegins hb) ht']
  rcases (laid ha).append_inj (laid hb) (fun c hc => ⟨ha.child hc, hchildren c hc⟩) (fun _ => hb.child)
    hopening ht ht' h with ⟨hshape, hsame, htail⟩
  exact ⟨.node (alike_of_shape_eq ha hb hshape) hsame, htail⟩

theorem delimited (a : Expr) : a.WellNamed → a.Delimited := by
  induction a using children_induction with
  | step a ih => exact fun ha => delimited_step ha fun c hc => ih c hc (ha.child hc)

/-- The same tree has the same text. -/
theorem SameTree.print_eq {a b : Expr} (h : SameTree a b) : a.print = b.print := by
  induction a using children_induction generalizing b with
  | step a ih =>
      cases h with
      | node alike children =>
          apply String.toList_inj.1
          rw [print_layout, print_layout b, alike.shape_eq]
          congr 1
          generalize a.children = as at ih children
          generalize b.children = bs at children
          induction children with
          | nil => rfl
          | cons hfirst _ ihs =>
              rw [List.map_cons, List.map_cons, ih _ List.mem_cons_self hfirst,
                ihs fun c hc => ih c (List.mem_cons_of_mem _ hc)]

/-- Two expressions have one text exactly if they are one tree: the same operators, functions, outputs,
    constants and symbol names over the same operands. There is one constant that is no number, and zero
    and negative zero are two. -/
theorem print_eq_iff {a b : Expr} (ha : a.WellNamed) (hb : b.WellNamed) :
    a.print = b.print ↔ SameTree a b := by
  constructor
  · intro h
    refine (delimited a ha b hb (stops_nil _) (stops_nil _) ?_).1
    rw [h]
  · exact SameTree.print_eq

/-- A call of a function named `sin` is not written as the built-in function over the same argument. -/
theorem print_call_ne_builtin :
    (call 5 "sin" [symbol 4 "x"] 0).WellNamed ∧ (unary 6 .sin (symbol 4 "x")).WellNamed ∧
      (call 5 "sin" [symbol 4 "x"] 0).print ≠ (unary 6 .sin (symbol 4 "x")).print := by
  have hx : (symbol 4 "x").WellNamed := by
    refine .of_children (fun _ hc => nomatch hc) (fun _ _ heq => ?_) (fun _ _ _ _ heq => nomatch heq)
    cases heq
    exact ⟨⟨List.all_eq_true.1 rfl, 'x', rfl, rfl⟩, by decide, by decide⟩
  have hcall : (call 5 "sin" [symbol 4 "x"] 0).WellNamed := by
    refine .of_children (fun _ hc => ?_) (fun _ _ heq => nomatch heq) (fun _ _ _ _ heq => ?_)
    · rwa [List.mem_singleton.1 hc]
    · cases heq
      exact ⟨List.all_eq_true.1 rfl, 's', rfl, rfl⟩
  have hbuiltin : (unary 6 .sin (symbol 4 "x")).WellNamed := by
    refine .of_children (fun _ hc => ?_) (fun _ _ heq => nomatch heq) (fun _ _ _ _ heq => nomatch heq)
    rwa [List.mem_singleton.1 hc]
  refine ⟨hcall, hbuiltin, fun h => ?_⟩
  cases (print_eq_iff hcall hbuiltin).1 h with
  | node alike _ => cases alike

end FlatDae.Expr
