/-
Module: FlatDae.Proofs.ExpressionAgreement
Purpose: Expressions are read in two passes as they are in one. Every rule of an expression leaves the parts
  that reading takes from it, of the rules that can stand there, so that the only thing to be found wrong is
  the number of an output that does not fit into 64 bits. Where all fit, the expression is the one that the
  grammar gives at once.
Main exports: settled, settled_bind, Pair.Means, agree_chain, agree_arithmetic, agree_expressionOver,
  agree_factor, agree_expression
-/
import FlatDae.Proofs.ExpressionReading
import FlatDae.Proofs.OperatorReading
import FlatDae.Proofs.TokenAgreement

namespace FlatDae.Source

/-! ### Results that hang on the numbers of outputs -/

section

variable {α β : Type} {fits fits' : Bool} {a : α} {b : β}

/-- The result, if the numbers of the outputs in it fit. -/
def settled (fits : Bool) (a : α) : Checked α := if fits then .ok a else .error .tooLarge

/-- What is made of several parts fits if every part does. -/
theorem settled_bind {f : α → Checked β} (h : f a = settled fits' b) :
    (settled fits a >>= f) = settled (fits && fits') b := by
  cases fits with
  | true => exact h.trans (by rw [Bool.true_and])
  | false => rfl

/-- What is made of one part fits if the part does. -/
theorem settled_map (g : α → β) : (do return g (← settled fits a)) = settled fits (g a) := by
  cases fits <;> rfl

/-- The members of a list are read one after the other. -/
theorem mapM_settled {read : Pair → Checked α} {fit : α → Bool} {ps : List Pair} {as : List α}
    (h : List.Forall₂ (fun p a => read p = settled (fit a) a) ps as) :
    ps.mapM read = settled (as.all fit) as := by
  induction h with
  | nil => rfl
  | cons hp _ ih =>
      rw [List.mapM_cons, hp, List.all_cons, ih]
      exact settled_bind (settled_map _)

end

theorem outputsFitAll_eq_all (es : List Expression) : outputsFitAll es = es.all (·.outputsFit) := by
  induction es with
  | nil => rfl
  | cons e es ih => rw [outputsFitAll, List.all_cons, ih]

/-- The pair is read as the expression, if the outputs that are selected in it fit. -/
def Pair.Means (p : Pair) (e : Expression) : Prop := readExpression p = settled e.outputsFit e

/-- So is a pair that a certain rule left. -/
def Pair.MeansAs (rule : Rule) (p : Pair) (e : Expression) : Prop := p.rule = rule ∧ p.Means e

namespace Parser

open FlatDae.Source.Grammar

variable {bound : Nat} {P OP : Parser Pair} {p : Parser Expression} {op : Parser BinaryOp} {c : Cursor}

/-! ### Operators and their operands -/

theorem agree_operatorToken (rule : Rule) (ops : List BinaryOp) :
    Agree (Pairs.token rule (operator ops)) (operator ops) fun p op => operatorOf p.text = .ok op := by
  refine .token_self (.firstOf fun p hp => ?_) (takes_operator ops) fun start op taken htaken => ?_
  · obtain ⟨op, -, rfl⟩ := List.mem_map.1 hp
    exact (SkipsBlanks.literal _).bind
  · rw [Pair.text, htaken, String.ofList_toList]
    exact operatorOf_spelling op

theorem agree_wordToken (rule : Rule) (op : BinaryOp) :
    Agree (Pairs.token rule (wordOperator op)) (wordOperator op) fun p op => operatorOf p.text = .ok op := by
  refine .token_self (SkipsBlanks.word _).bind (takes_wordOperator op) fun start op taken htaken => ?_
  rw [Pair.text, htaken, String.ofList_toList]
  exact operatorOf_spelling op

/-- An operator with its operand. -/
def Linked (inner : List Pair) (link : BinaryOp × Expression) : Prop :=
  ∃ o x, inner = [o, x] ∧ operatorOf o.text = .ok link.1 ∧ x.Means link.2

/-- Operators and operands are taken together from the left. -/
theorem readOperators_settled {more : List (List Pair)} {links : List (BinaryOp × Expression)}
    (h : List.Forall₂ Linked more links) (left : Expression) :
    (settled left.outputsFit left >>= readOperators more.flatten) =
      let e := links.foldl (fun left (op, right) => .binary left.start op left right) left
      settled e.outputsFit e := by
  induction h generalizing left with
  | nil => exact bind_pure _
  | @cons inner link more links hlinked _ ih =>
      obtain ⟨o, x, rfl, hop, hx⟩ := hlinked
      rw [List.foldl_cons, ← ih]
      change (settled left.outputsFit left >>= fun left => readExpression x >>= fun right =>
        operatorOf o.text >>= fun op => readOperators more.flatten (.binary left.start op left right)) = _
      rw [hx, hop, Expression.outputsFit]
      cases left.outputsFit <;> cases link.2.outputsFit <;> rfl

/-- What follows the first operand. -/
theorem agree_chained (hop : Agree OP op fun o op => operatorOf o.text = .ok op)
    (hoperand : Agree P p Pair.Means) (left : Expression) :
    Agree (Pairs.links bound OP P) (chained bound op p left) fun rest e =>
      (settled left.outputsFit left >>= readOperators rest) = settled e.outputsFit e := by
  have hlink : Agree (do return [← OP, ← P]) (do return (← op, ← p)) Linked :=
    hop.bind fun o op ho => hoperand.bind fun x e hx => .pure ⟨o, x, rfl, ho, hx⟩
  exact (hlink.many bound).bind fun more links hmore => .pure (readOperators_settled hmore left)

/-- A rule that is a chain of operands. -/
theorem agree_chain {rule : Rule}
    (hread : ∀ start text inner, readExpression (.mk rule start text inner) = readChain inner)
    (hskips : SkipsBlanks p) (hop : Agree OP op fun o op => operatorOf o.text = .ok op)
    (hoperand : Agree P p Pair.Means) :
    Agree (Pairs.pair rule (Pairs.chain bound OP P)) (leftAssociative bound op p) (Pair.MeansAs rule) := by
  refine .rule hskips.bind (hoperand.bind fun x left hx => ?_)
  refine (agree_chained hop hoperand left).wrapping fun rest e he start text => ⟨rfl, ?_⟩
  rw [Pair.Means, hread, readChain, hx]
  exact he

/-! ### Levels of an expression -/

namespace SkipsBlanks

variable {FACTOR : Parser Expression}

theorem leftAssociative (h : SkipsBlanks p) : SkipsBlanks (leftAssociative bound op p) := h.bind

theorem term (h : SkipsBlanks p) : SkipsBlanks (term bound p) := h.leftAssociative.leftAssociative

theorem arithmetic (h : SkipsBlanks p) : SkipsBlanks (arithmetic bound p) := (start.bind.orElse h.term).bind

theorem inversion : SkipsBlanks (inversion bound p) := start.bind

theorem factor (bound : Nat) : ∀ depth, SkipsBlanks (factor bound depth)
  | 0 => failure
  | depth + 1 => by
      refine firstOf fun p hp => ?_
      simp only [List.mem_cons, List.not_mem_nil, or_false] at hp
      rcases hp with rfl | rfl | rfl | rfl | rfl
      · exact start.bind
      · exact start.bind
      · exact start.bind
      · exact start.bind
      · exact (literal _).bind

end SkipsBlanks

section

variable {FACTOR : Parser Pair} {factor : Parser Expression} (hskips : SkipsBlanks factor)
  (hfactor : Agree FACTOR factor (Pair.MeansAs .factor))
include hskips hfactor

theorem agree_power : Agree (Pairs.power FACTOR) (power factor) (Pair.MeansAs .power) :=
  agree_chain (fun _ _ _ => rfl) hskips (agree_operatorToken _ _) (hfactor.imp fun _ _ h => h.2)

theorem agree_term : Agree (Pairs.term bound FACTOR) (term bound factor) (Pair.MeansAs .term) :=
  agree_chain (fun _ _ _ => rfl) hskips.leftAssociative (agree_operatorToken _ _)
    ((agree_power hskips hfactor).imp fun _ _ h => h.2)

end

/-! ### Sums -/

/-- A sign with the place where it stands. -/
def placedSign : Parser (Nat × Sign) := do
  let offset ← start
  return (offset, ← Pairs.sign)

theorem signedTerm_eq {factor : Parser Expression} : signedTerm bound factor = do
    let sign ← placedSign
    return .signed sign.1 sign.2 (← Grammar.term bound factor) := by
  simp only [signedTerm, placedSign, Pairs.sign, bind_assoc, pure_bind]

/-- What is taken for a sign is one, and no factor begins with it. -/
theorem takes_sign : Takes Pairs.sign fun sign taken => signOf (String.ofList taken) = .ok sign ∧
    ∃ a as, taken = a :: as ∧ isAtomChar a = false ∧ a ≠ '(' ∧ isBlank a = false ∧ a ≠ '/' := by
  refine .firstOf fun p hp => ?_
  simp only [List.mem_cons, List.not_mem_nil, or_false] at hp
  rcases hp with rfl | rfl
  · refine ((takes_literal _).returning _).imp ?_
    rintro _ _ ⟨rfl, rfl⟩
    exact ⟨rfl, '-', [], rfl, by decide⟩
  · refine ((takes_literal _).returning _).imp ?_
    rintro _ _ ⟨rfl, rfl⟩
    exact ⟨rfl, '+', [], rfl, by decide⟩

theorem agree_sign : Agree (Pairs.token .sign Pairs.sign) placedSign fun s sign =>
    s.rule = .sign ∧ s.start = sign.1 ∧ signOf s.text = .ok sign.2 := by
  refine .token takes_sign fun c _ => ?_
  refine Agree.returning (R := Eq) (fun c => .refl _ c) ?_ c
  rintro sign _ rfl taken ⟨htaken, -⟩
  exact ⟨rfl, rfl, htaken⟩

/-- Where a sign stands there is no term. -/
theorem term_eq_none {depth : Nat} {sign : Nat × Sign} {c c' : Cursor}
    (h : placedSign c = some (sign, c')) : Grammar.term bound (Grammar.factor bound depth) c = none := by
  obtain ⟨s, c₁, hsign, -⟩ := bind_eq_some_iff.1 (of_start h)
  obtain ⟨taken, hpasses, -, a, as, rfl, hatom, hparenthesis, hblank, hslash⟩ :=
    takes_sign (pastBlanks_pastBlanks c) hsign
  have hrest : dropBlanks c.rest = a :: (as ++ c₁.rest) := (pastBlanks_rest c).symm.trans hpasses.rest
  have hsolid : dropBlanks (a :: (as ++ c₁.rest)) = a :: (as ++ c₁.rest) :=
    dropBlanks_solid _ hblank hslash
  have hfactor : Refuses (Grammar.factor bound depth) (a :: (as ++ c₁.rest)) :=
    refuses_factor hsolid hatom hparenthesis depth
  exact hfactor.bind.bind c (hrest.trans hsolid.symm)

theorem optional_eq {σ : Type} {Q : Parser σ} {s : σ} {c' : Cursor} (h : Q c = some (s, c')) :
    optional Q c = some (some s, c') := by
  refine orElse_eq ?_
  rw [map_eq_pure_bind]
  exact bind_eq h

theorem optional_eq_of_none {σ : Type} {Q : Parser σ} (h : Q c = none) : optional Q c = some (none, c) := by
  refine (orElse_eq_of_none ?_).trans rfl
  rw [map_eq_pure_bind]
  exact bind_eq_none h

/-- A sum without a sign is a chain of terms. -/
theorem readArithmetic_of_ne {first : Pair} (h : first.rule ≠ .sign) (rest : List Pair) :
    readArithmetic (first :: rest) = (readExpression first >>= readOperators rest) := by
  cases rest with
  | nil => rw [readArithmetic, if_neg h]
  | cons p rest => rw [readArithmetic, if_neg h]

section

variable {depth : Nat} {FACTOR : Parser Pair}
  (hfactor : Agree FACTOR (Grammar.factor bound depth) (Pair.MeansAs .factor))
include hfactor

/-- The first term of a sum, with a sign or without one. -/
theorem agree_firstTerm :
    Agree (do
        let sign ← optional (Pairs.token .sign Pairs.sign)
        return sign.toList ++ [← Pairs.term bound FACTOR])
      (signedTerm bound (Grammar.factor bound depth) <|> Grammar.term bound (Grammar.factor bound depth))
      fun inner left => ∀ rest,
        readArithmetic (inner ++ rest) = (settled left.outputsFit left >>= readOperators rest) := by
  have hterm : Agree (Pairs.term bound FACTOR) (Grammar.term bound (Grammar.factor bound depth)) _ :=
    agree_term (SkipsBlanks.factor bound depth) hfactor
  intro c
  cases agree_sign c with
  | fail hP hp =>
      have hunsigned : signedTerm bound (Grammar.factor bound depth) c = none := by
        rw [signedTerm_eq]
        exact bind_eq_none hp
      refine .congr ?_ (bind_eq (optional_eq_of_none hP)) (orElse_eq_of_none hunsigned)
      refine hterm.wrapping (fun x left ⟨hrule, hx⟩ rest => ?_) c
      have hfirst : x.rule ≠ .sign := by rw [hrule]; decide
      change readArithmetic (x :: rest) = _
      rw [readArithmetic_of_ne hfirst, hx]
  | @read s sign c₁ hP hp hR =>
      obtain ⟨hrule, hstart, hsign⟩ := hR
      have hsigned : signedTerm bound (Grammar.factor bound depth) c =
          (do return .signed sign.1 sign.2 (← Grammar.term bound (Grammar.factor bound depth)) :
            Parser Expression) c₁ := by
        rw [signedTerm_eq]
        exact bind_eq hp
      have hoperand : AgreeAt (do return [s] ++ [← Pairs.term bound FACTOR])
          (do return .signed sign.1 sign.2 (← Grammar.term bound (Grammar.factor bound depth)))
          (fun inner left => ∀ rest,
            readArithmetic (inner ++ rest) = (settled left.outputsFit left >>= readOperators rest)) c₁ := by
        refine hterm.bind (fun x operand ⟨_, hx⟩ => .pure fun rest => ?_) c₁
        change readArithmetic (s :: x :: rest) = _
        rw [readArithmetic, if_pos hrule, hx, hstart, hsign, Expression.outputsFit]
        cases operand.outputsFit <;> rfl
      refine hoperand.congr (bind_eq (optional_eq hP)) ?_
      cases hread : signedTerm bound (Grammar.factor bound depth) c with
      | some r => exact (orElse_eq hread).trans (hread.symm.trans hsigned)
      | none => exact (orElse_eq_of_none hread).trans ((term_eq_none hp).trans (hread.symm.trans hsigned))

/-- A sum is read in the same way whether its first term has a sign or none. -/
theorem agree_arithmetic : Agree (Pairs.arithmetic bound FACTOR)
    (Grammar.arithmetic bound (Grammar.factor bound depth)) (Pair.MeansAs .arithmetic) := by
  have hskips := SkipsBlanks.factor bound depth
  have hterm : Agree (Pairs.term bound FACTOR) (Grammar.term bound (Grammar.factor bound depth)) _ :=
    agree_term hskips hfactor
  have hsum : Agree (do
        let inner ← (do
          let sign ← optional (Pairs.token .sign Pairs.sign)
          return sign.toList ++ [← Pairs.term bound FACTOR])
        return inner ++ (← Pairs.links bound (Pairs.token .termOperator (operator [.sub, .add]))
          (Pairs.term bound FACTOR)))
      (Grammar.arithmetic bound (Grammar.factor bound depth))
      fun inner e => ∀ start text, Pair.MeansAs .arithmetic (.mk .arithmetic start text inner) e := by
    refine (agree_firstTerm hfactor).bind fun inner left hfirst => ?_
    refine (agree_chained (agree_operatorToken _ _) (hterm.imp fun _ _ h => h.2) left).wrapping
      fun rest e he start text => ⟨rfl, ?_⟩
    exact (hfirst rest).trans he
  refine .rule hskips.arithmetic ?_
  simpa only [bind_assoc, pure_bind, Pairs.chain, List.append_assoc, List.singleton_append] using hsum

/-! ### Comparisons, negations and logical operators -/

theorem agree_relation : Agree (Pairs.relation bound FACTOR)
    (Grammar.relation bound (Grammar.factor bound depth)) (Pair.MeansAs .relation) :=
  agree_chain (fun _ _ _ => rfl) (SkipsBlanks.factor bound depth).arithmetic (agree_operatorToken _ _)
    ((agree_arithmetic hfactor).imp fun _ _ h => h.2)

theorem agree_inversion : Agree (Pairs.inversion bound FACTOR)
    (Grammar.inversion bound (Grammar.factor bound depth)) (Pair.MeansAs .inversion) := by
  have hword : Agree (Pairs.token .notOperator (word "not")) (word "not") fun p _ => p.rule = .notOperator :=
    .token_self (.word _) (takes_word _) fun _ _ _ _ => rfl
  have hrelation := agree_relation hfactor
  refine .pair fun c _ => ?_
  refine hword.option.bind (fun negated negated' hnegated => ?_) c
  cases hnegated with
  | none =>
      refine hrelation.wrapping fun x e ⟨hrule, hx⟩ text => ⟨rfl, ?_⟩
      change readInversion c.offset [x] = _
      rw [readInversion, hrule, if_neg (by decide), hx]
  | @some s _ hrule =>
      refine hrelation.bind fun x e ⟨_, hx⟩ => .pure fun text => ⟨rfl, ?_⟩
      change readInversion c.offset [s, x] = _
      rw [readInversion, if_pos hrule, hx]
      exact settled_map _

theorem agree_expressionOver : Agree (Pairs.expressionOver bound FACTOR)
    (Grammar.expressionOver bound (Grammar.factor bound depth)) (Pair.MeansAs .expression) := by
  have hconjunction : Agree (Pairs.conjunction bound FACTOR) _ _ :=
    agree_chain (fun _ _ _ => rfl) SkipsBlanks.inversion (agree_wordToken .andOperator .and)
      ((agree_inversion hfactor).imp fun _ _ h => h.2)
  exact agree_chain (fun _ _ _ => rfl) SkipsBlanks.inversion.leftAssociative (agree_wordToken _ _)
    (hconjunction.imp fun _ _ h => h.2)

end

/-! ### Atoms -/

theorem agree_name : Agree Pairs.name Grammar.name fun p n => p.rule = .name ∧ p.text = n := by
  refine .token_self .name takes_name fun start n taken htaken => ⟨rfl, ?_⟩
  rw [Pair.text, htaken, String.ofList_toList]

theorem agree_reference : Agree Pairs.name reference Pair.Means := by
  refine .token takes_name fun c _ => ?_
  refine Agree.returning (R := Eq) (fun c => .refl _ c) ?_ c
  rintro n _ rfl taken rfl
  rw [String.ofList_toList]
  rfl

theorem agree_truth : Agree Pairs.truth Grammar.truth Pair.Means := by
  have htakes : Takes ((do word "true"; return true) <|> (do word "false"; return false) : Parser Bool)
      fun b taken => taken = (if b then "true" else "false").toList := by
    refine .orElse (((takes_word _).returning _).imp ?_) (((takes_word _).returning _).imp ?_)
    · rintro _ _ ⟨rfl, rfl⟩
      rfl
    · rintro _ _ ⟨rfl, rfl⟩
      rfl
  refine .token htakes fun c _ => ?_
  have hboth : Agree ((do word "true"; return true) <|> (do word "false"; return false) : Parser Bool)
      (((do word "true"; return .truth c.offset true) <|>
        (do word "false"; return .truth c.offset false)) : Parser Expression)
      fun b e => e = .truth c.offset b :=
    .orElse (.both _ fun _ => .pure rfl) (.both _ fun _ => .pure rfl)
  refine (hboth.imp ?_) c
  rintro b _ rfl taken rfl
  cases b <;> rfl

/-- Every numeral is read as a number. -/
theorem agree_number : Agree Pairs.number Grammar.number Pair.Means := by
  refine .token takes_numeral fun c hc => ?_
  have hread (digits : List Char) (c' : Cursor) (h : Pairs.numeral c = some (digits, c')) :
      ∃ value, Decimal.read? (String.ofList digits) = some value := by
    obtain ⟨_, _, value, _, hvalue⟩ := takes_numeral hc h
    exact ⟨value, hvalue⟩
  have hnumber : AgreeAt Pairs.numeral (do
        let digits ← Pairs.numeral
        (Decimal.read? (String.ofList digits)).elim failure fun value =>
          return Expression.number c.offset value)
      (fun digits e => ∀ taken, (∃ value, Decimal.read? (String.ofList taken) = some value ∧
        Decimal.read? (String.ofList digits) = some value) →
        Pair.Means (.mk .number c.offset (String.ofList taken) []) e) c := by
    cases h : Pairs.numeral c with
    | none => exact .fail h (bind_eq_none h)
    | some r =>
        obtain ⟨value, hvalue⟩ := hread r.1 r.2 h
        refine .read (a := .number c.offset value) h ((bind_eq h).trans ?_) ?_
        · rw [hvalue]
          rfl
        · rintro taken ⟨value', htaken, hvalue'⟩
          obtain rfl : value' = value := Option.some.inj (hvalue'.symm.trans hvalue)
          change (do return Expression.number c.offset (← numberOf (String.ofList taken))) = _
          rw [numberOf, htaken]
          rfl
  refine hnumber.congr rfl (congrFun ?_ c)
  simp only [Pairs.numeral, bind_assoc, pure_bind]
  refine bind_congr fun digits => bind_congr fun power => ?_
  cases Decimal.read? (String.ofList (digits ++ power)) <;> rfl

/-! ### Calls -/

/-- The number of an output is read, and it fits or it does not. -/
theorem agree_outputIndex : Agree Pairs.outputIndex Grammar.outputIndex fun p k =>
    p.rule = .outputIndex ∧ readIndex p = settled (k < outputLimit) k := by
  have hdigits : Agree (Pairs.token .integer Pairs.digits) (start >>= fun _ => Pairs.digits) fun p digits =>
      indexOf p.text = settled (Decimal.natOfDigits digits < outputLimit) (Decimal.natOfDigits digits) := by
    refine .token takes_digits fun c _ => (AgreeAt.refl _ c).imp ?_
    rintro digits _ rfl taken ⟨rfl, hne, hdigits⟩
    rw [Pair.text, indexOf_digits hne hdigits]
    simp only [settled, decide_eq_true_eq]
  have hindex : Agree (do
        literal "\x7b"
        let index ← Pairs.token .integer Pairs.digits
        literal "\x7d"
        return [index])
      (do
        literal "\x7b"
        let digits ← start >>= fun _ => Pairs.digits
        literal "\x7d"
        return Decimal.natOfDigits digits)
      fun inner k => ∀ start text, (Pair.mk .outputIndex start text inner).rule = .outputIndex ∧
        readIndex (.mk .outputIndex start text inner) = settled (k < outputLimit) k :=
    .both _ fun _ => hdigits.bind fun index digits hindex => .both _ fun _ => .pure fun _ _ => ⟨rfl, hindex⟩
  refine .rule (SkipsBlanks.literal _).bind ?_
  have hread : Grammar.outputIndex = (do
      literal "\x7b"
      let digits ← start >>= fun _ => Pairs.digits
      literal "\x7d"
      return Decimal.natOfDigits digits) := by
    have hskip (p : Parser Nat) : (start >>= fun _ => p) = (skipBlanks >>= fun _ => p) := rfl
    simp only [bind_assoc, hskip, Pairs.digits, Grammar.outputIndex]
    refine bind_congr fun _ => bind_congr fun _ => bind_congr fun digits => ?_
    cases digits.isEmpty <;> rfl
  rw [hread]
  exact hindex

/-- Arguments are read one after the other, and the number of an output behind them. -/
theorem readArguments_settled {ps : List Pair} {args : List Expression} {p? : Option Pair} {k? : Option Nat}
    (hargs : List.Forall₂ (Pair.MeansAs .expression) ps args)
    (houtput : Option.Rel (fun p k => p.rule = .outputIndex ∧ readIndex p = settled (k < outputLimit) k)
      p? k?) :
    readArguments (ps ++ p?.toList) =
      settled (args.all (·.outputsFit) && k?.all (· < outputLimit)) (args, k?) := by
  induction hargs with
  | nil =>
      cases houtput with
      | none => rfl
      | @some p k hp =>
          change readArguments [p] = _
          rw [readArguments, if_pos hp.1, hp.2]
          exact settled_map fun k => (([] : List Expression), some k)
  | @cons p arg ps args hp _ ih =>
      have hrule : p.rule ≠ .outputIndex := by rw [hp.1]; decide
      rw [List.cons_append, readArguments, if_neg hrule, hp.2, ih, List.all_cons, Bool.and_assoc]
      exact settled_bind (settled_map fun read : List Expression × Option Nat => (arg :: read.1, read.2))

section

variable {NESTED : Parser Pair} {nested : Parser Expression}
  (hnested : Agree NESTED nested (Pair.MeansAs .expression))
include hnested

theorem agree_call : Agree (Pairs.call bound NESTED) (Grammar.call bound nested) Pair.Means := by
  refine .pair fun c _ => ?_
  have hcall : Agree (do
        let function ← Pairs.name
        literal "("
        let args ← separated bound NESTED <|> pure []
        literal ")"
        let output ← optional Pairs.outputIndex
        return function :: args ++ output.toList)
      (do
        let function ← Grammar.name
        literal "("
        let args ← separated bound nested <|> pure []
        literal ")"
        return .call c.offset function args (← optional Grammar.outputIndex))
      fun inner e => ∀ text, Pair.Means (.mk .call c.offset text inner) e := by
    refine agree_name.bind fun function n ⟨_, hname⟩ => .both _ fun _ => ?_
    refine (hnested.listed bound).bind fun ps args hargs => .both _ fun _ => ?_
    refine agree_outputIndex.option.bind fun p? k? houtput => .pure fun text => ?_
    change readCall c.offset (function :: ps ++ p?.toList) = _
    rw [List.cons_append, readCall, readArguments_settled hargs houtput, hname, Expression.outputsFit,
      outputsFitAll_eq_all]
    exact settled_map fun read : List Expression × Option Nat => Expression.call c.offset n read.1 read.2
  exact hcall c

theorem agree_parenthesised : Agree (Pairs.parenthesised NESTED) (Grammar.parenthesised nested) Pair.Means :=
  .both _ fun _ => hnested.bind fun _ _ h => .both _ fun _ => .pure h.2

end

theorem agree_factor (bound : Nat) : ∀ depth,
    Agree (Pairs.factor bound depth) (Grammar.factor bound depth) (Pair.MeansAs .factor)
  | 0 => .failure
  | depth + 1 => by
      have hnested := agree_expressionOver (agree_factor bound depth)
      refine .rule (SkipsBlanks.factor bound (depth + 1)) ?_
      refine Agree.wrapping (R := Pair.Means) ?_ fun x e hx start text => ⟨rfl, hx⟩
      exact (agree_call hnested).orElse (agree_number.orElse (agree_truth.orElse
        (agree_reference.orElse ((agree_parenthesised hnested).orElse .failure))))

theorem agree_expression (bound : Nat) :
    Agree (Pairs.expression bound) (Grammar.expression bound) (Pair.MeansAs .expression) :=
  agree_expressionOver (agree_factor bound bound)

end Parser

end FlatDae.Source
