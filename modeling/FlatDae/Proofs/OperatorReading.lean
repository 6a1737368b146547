/-
Module: FlatDae.Proofs.OperatorReading
Purpose: How the operations of an expression are read. The grammar reads one level of binding after the
  other, and on each level operands as long as an operator of the level follows. So a level reads what is
  written for it if the next level does and if nothing behind it goes on with an expression of the level.
  The operations of one level come together from the left as they were written. In the end every level is
  read if the factors are.
Main exports: Ends, ReadsLevel, reads_chain, readsLevel_chained, readsLevel_expressionOver
-/
import FlatDae.Proofs.WrittenExpressions

namespace FlatDae.Source

open FlatDae.Source.Grammar FlatDae.Source.Parser

/-! ### What follows an expression -/

/-- The level of the operators that begin with a character. -/
def symbolLevel : Char → Option Nat
  | 'o' => some 0
  | 'a' => some 1
  | '=' | '<' | '>' => some 3
  | '+' | '-' => some 4
  | '*' | '/' => some 5
  | '^' => some 6
  | _ => none

theorem symbolLevel_spelling (op : BinaryOp) :
    (spelling op).toList.head?.any fun c => symbolLevel c == some (operatorLevel op) := by
  cases op <;> rfl

/-- What begins with an operator begins with none of another level. -/
theorem stops_spelling {op op' : BinaryOp} (h : operatorLevel op ≠ operatorLevel op') (rest : List Char) :
    Stops (fun c => symbolLevel c == some (operatorLevel op')) ((spelling op).toList ++ rest) := by
  have hhead := symbolLevel_spelling op
  cases hspelling : (spelling op).toList with
  | nil =>
      rw [hspelling] at hhead
      cases hhead
  | cons c cs =>
      rw [hspelling, List.head?_cons, Option.any_some, beq_iff_eq] at hhead
      rw [List.cons_append, stops_cons, hhead, beq_eq_false_iff_ne, Ne, Option.some.injEq]
      exact h

/-- No blank and no comment stands in front of an operator. -/
theorem dropBlanks_spelling (op : BinaryOp) (rest : List Char) :
    dropBlanks ((spelling op).toList ++ ' ' :: rest) = (spelling op).toList ++ ' ' :: rest := by
  cases op <;> rfl

/-- An operator as it is read: the logical ones are words. -/
def operatorToken (op : BinaryOp) : Parser Unit :=
  if operatorLevel op < 2 then word (spelling op) else literal (spelling op)

theorem refuses_operatorToken {op : BinaryOp} {text : List Char} (h : Refuses (literal (spelling op)) text) :
    Refuses (operatorToken op) text := by
  unfold operatorToken
  split
  · exact h.bind
  · exact h

/-- An operator is not read where no operator of its level begins. -/
theorem refuses_literal_spelling {op : BinaryOp} {text : List Char}
    (h : Stops (fun c => symbolLevel c == some (operatorLevel op)) (dropBlanks text)) :
    Refuses (literal (spelling op)) text :=
  refuses_literal (h.not_leading (symbolLevel_spelling op))

/-- Nothing at the front goes on with an expression whose operators bind as tightly as the level. -/
structure Ends (ℓ : Nat) (rest : List Char) : Prop where
  atom : Stops isAtomChar rest
  call : Stops (fun c => c == '(' || c == '\x7b') (dropBlanks rest)
  operator : ∀ op, ℓ ≤ operatorLevel op → Refuses (operatorToken op) rest

namespace Ends

theorem mono {ℓ ℓ' : Nat} {rest : List Char} (h : Ends ℓ rest) (hle : ℓ ≤ ℓ') : Ends ℓ' rest :=
  ⟨h.atom, h.call, fun op hop => h.operator op (hle.trans hop)⟩

theorem nameEnd {ℓ : Nat} {rest : List Char} (h : Ends ℓ rest) : Stops isNameChar rest :=
  h.atom.imp fun _ => isAtomChar_of_isNameChar

/-- An operator ends every expression that binds more tightly. -/
theorem binary (op : BinaryOp) (rest : List Char) :
    Ends (operatorLevel op + 1) (' ' :: ((spelling op).toList ++ ' ' :: rest)) := by
  refine ⟨stops_cons.2 rfl, ?_, fun op' hop => refuses_operatorToken (refuses_literal_spelling ?_)⟩
  · rw [dropBlanks_space, dropBlanks_spelling]
    cases op <;> exact stops_cons.2 rfl
  · rw [dropBlanks_space, dropBlanks_spelling]
    exact stops_spelling (by omega) _

end Ends

/-! ### Operators -/

/-- Of the operators that stand at the front the first is read. -/
theorem reads_operator {ops : List BinaryOp} {op : BinaryOp} {rest : List Char}
    (h : ops.find? (fun o => (spelling o).toList.isPrefixOf ((spelling op).toList ++ ' ' :: rest)) = some op) :
    Reads (Grammar.operator ops) (' ' :: ((spelling op).toList ++ ' ' :: rest)) (· = op) (' ' :: rest) := by
  refine Reads.blanks ?_ (dropBlanks_space _)
  induction ops with
  | nil => cases h
  | cons o ops ih =>
      rw [List.find?_cons] at h
      split at h
      · obtain rfl := Option.some.inj h
        have hread : Reads (do literal (spelling o); return o) ((spelling o).toList ++ ' ' :: rest) (· = o)
            (' ' :: rest) := (reads_literal (dropBlanks_spelling o rest)).bind fun _ _ => .pure rfl
        exact hread.orElse
      · next hbegins =>
          refine (Refuses.bind (refuses_literal fun hop => ?_)).reads_orElse (ih h)
          rw [dropBlanks_spelling, ← List.isPrefixOf_iff_prefix, hbegins] at hop
          cases hop

theorem reads_wordOperator {op : BinaryOp} (hop : spelling op ∈ keywords) (rest : List Char) :
    Reads (wordOperator op) (' ' :: ((spelling op).toList ++ ' ' :: rest)) (· = op) (' ' :: rest) := by
  refine Reads.blanks ?_ (dropBlanks_space _)
  refine (reads_word ?_ (stops_cons.2 rfl)).bind fun _ _ => .pure rfl
  exact dropBlanks_word (isNameChar_of_keyword hop) (keyword_ne_nil hop) _

/-! ### Operations of one level -/

/-- The expressions are the same but for the places at which their parts start. -/
def Expression.SameTree (e e' : Expression) : Prop := e'.unplaced = e.unplaced

/-- The digits of the numbers in an expression stand for these numbers. -/
def Expression.DigitsReadBack (e : Expression) : Prop :=
  ∀ v ∈ e.numbers, Decimal.read? (Decimal.text v) = some v

/-- The parser reads what is written for the level in at most `size` characters. -/
def ReadsLevel (ℓ size : Nat) (p : Parser Expression) : Prop :=
  ∀ e : Expression, e.Writable → e.DigitsReadBack → (e.writtenAt ℓ).length ≤ size → ∀ rest, Ends ℓ rest →
    Reads p ((e.writtenAt ℓ).toList ++ rest) e.SameTree rest

/-- What follows the first operand of a level. -/
def chained (bound : Nat) (op : Parser BinaryOp) (operand : Parser Expression) (first : Expression) :
    Parser Expression := do
  let more ← many bound (do return (← op, ← operand))
  return more.foldl (fun left (op, right) => .binary left.start op left right) first

section

variable {ℓ size bound : Nat} {op : Parser BinaryOp} {head operand : Parser Expression} {first : Expression}
  {text mid tail rest : List Char} {holds : Expression → Prop}

theorem reads_chained_nil (hop : Refuses op rest) :
    Reads (chained bound op operand first) rest (· = first) rest :=
  (Refuses.many hop.bind).bind fun _ h => .pure (by rw [h]; rfl)

theorem chained_succ {o : BinaryOp} {right : Expression} {c c' : Cursor}
    (h : (do return (← op, ← operand) : Parser (BinaryOp × Expression)) c = some ((o, right), c')) :
    chained (bound + 1) op operand first c =
      chained bound op operand (.binary first.start o first right) c' := by
  change some ((repeatFrom _ (bound + 1) [] c).1.foldl _ first, (repeatFrom _ (bound + 1) [] c).2) = _
  rw [repeatFrom, h]
  dsimp only
  rw [repeatFrom_eq]
  rfl

/-- One more operator with its operand. -/
theorem reads_chained_cons {o : BinaryOp} {right : Expression} (hop : Reads op text (· = o) mid)
    (hright : Reads operand mid right.SameTree tail)
    (hrest : ∀ right', right.SameTree right' →
      Reads (chained bound op operand (.binary first.start o first right')) tail holds rest) :
    Reads (chained (bound + 1) op operand first) text holds rest := by
  intro c hc
  rcases hop c hc with ⟨_, c₁, hread₁, rfl, hmid⟩
  rcases hright c₁ hmid with ⟨right', c₂, hread₂, hsame, htail⟩
  rcases hrest right' hsame c₂ htail with ⟨e, c₃, hread₃, he, hrest⟩
  refine ⟨e, c₃, ?_, he, hrest⟩
  rw [chained_succ ((bind_eq hread₁).trans (bind_eq hread₂)), hread₃]

/-- The number of operators of the level that follow one another from the left. -/
def Expression.links (ℓ : Nat) : Expression → Nat
  | .binary _ op left _ => if leftLevel op = ℓ then left.links ℓ + 1 else 1
  | _ => 0

/-- The reader of a first operand takes what has a sign of the level on top. -/
def ReadsSigned (ℓ size : Nat) (p : Parser Expression) : Prop :=
  ∀ start sign operand, sign.level = ℓ → (Expression.signed start sign operand).Writable →
    (Expression.signed start sign operand).DigitsReadBack →
    (Expression.signed start sign operand).written.length ≤ size → ∀ rest, Ends (ℓ + 1) rest →
    Reads p ((Expression.signed start sign operand).written.toList ++ rest)
      (Expression.signed start sign operand).SameTree rest

theorem Expression.DigitsReadBack.binary {start : Nat} {o : BinaryOp} {left right : Expression}
    (h : (Expression.binary start o left right).DigitsReadBack) : left.DigitsReadBack ∧ right.DigitsReadBack :=
  ⟨fun v hv => h v (List.mem_append_left _ hv), fun v hv => h v (List.mem_append_right _ hv)⟩

variable (hhead : ReadsLevel (ℓ + 1) size head) (hoperand : ReadsLevel (ℓ + 1) size operand)
  (hop : ∀ o rest, operatorLevel o = ℓ →
    Reads op (' ' :: ((spelling o).toList ++ ' ' :: rest)) (· = o) (' ' :: rest))

include hoperand hop in
/-- Behind a left operand its operator and the right operand are read. -/
theorem reads_link {start : Nat} {o : BinaryOp} {left right : Expression} (hlevel : operatorLevel o = ℓ)
    (hright : right.Writable) (hdigits : right.DigitsReadBack) (hsize : (right.writtenAt (ℓ + 1)).length ≤ size)
    (htail : Ends (ℓ + 1) tail) {m : Nat}
    (hrest : ∀ k first, m ≤ k → (Expression.binary start o left right).SameTree first →
      Reads (chained k op operand first) tail holds rest)
    {k : Nat} {first : Expression} (hk : m + 1 ≤ k) (hfirst : left.SameTree first) :
    Reads (chained k op operand first)
      (' ' :: ((spelling o).toList ++ ' ' :: ((right.writtenAt (ℓ + 1)).toList ++ tail))) holds rest := by
  cases k with
  | zero => omega
  | succ k =>
      have hread := (hoperand right hright hdigits hsize tail htail).blanks (dropBlanks_space _)
      refine reads_chained_cons (hop o _ hlevel) hread fun right' hsame => hrest k _ (by omega) ?_
      rw [Expression.SameTree, Expression.unplaced, Expression.unplaced, hfirst, hsame]

include hhead hoperand hop in
/-- What is written for a level is read as a first operand and the operators that follow it, and what is
    read behind them goes on from the whole expression. By induction along the left operands. -/
theorem reads_chain (hℓ : ℓ < 7) (hsigned : ReadsSigned ℓ size head) {e : Expression} (he : e.Writable)
    (hdigits : e.DigitsReadBack) (hsize : (e.writtenAt ℓ).length ≤ size) {m n : Nat} (hn : m + e.links ℓ ≤ n)
    (htail : Ends (ℓ + 1) tail)
    (hrest : ∀ k first, m ≤ k → e.SameTree first → Reads (chained k op operand first) tail holds rest) :
    Reads (head >>= chained n op operand) ((e.writtenAt ℓ).toList ++ tail) holds rest := by
  have hother : ∀ {e : Expression}, e.Writable → e.level ≠ ℓ → e.DigitsReadBack →
      (e.writtenAt ℓ).length ≤ size →
      ∀ {m n : Nat} {tail : List Char}, m ≤ n → Ends (ℓ + 1) tail →
      (∀ k first, m ≤ k → e.SameTree first → Reads (chained k op operand first) tail holds rest) →
      Reads (head >>= chained n op operand) ((e.writtenAt ℓ).toList ++ tail) holds rest := by
    intro e he hlevel hdigits hsize m n tail hn htail hrest
    rw [← Expression.writtenAt_succ hlevel] at hsize ⊢
    exact (hhead e he hdigits hsize tail htail).bind fun first hfirst => hrest n first hn hfirst
  induction he generalizing m n tail with
  | number hvalue => exact hother (.number hvalue) (Nat.ne_of_gt hℓ) hdigits hsize (by omega) htail hrest
  | truth => exact hother .truth (Nat.ne_of_gt hℓ) hdigits hsize (by omega) htail hrest
  | name hname => exact hother (.name hname) (Nat.ne_of_gt hℓ) hdigits hsize (by omega) htail hrest
  | call hname hargs houtput =>
      exact hother (.call hname hargs houtput) (Nat.ne_of_gt hℓ) hdigits hsize (by omega) htail hrest
  | @signed start sign operand hoperand' =>
      by_cases hlevel : (Expression.signed start sign operand).level = ℓ
      · rw [Expression.writtenAt_of_le (Nat.le_of_eq hlevel.symm)] at hsize ⊢
        exact (hsigned start sign operand hlevel (.signed hoperand') hdigits hsize tail htail).bind
          fun first hfirst => hrest n first (by omega) hfirst
      · exact hother (.signed hoperand') hlevel hdigits hsize (by omega) htail hrest
  | @binary start o left right hleft hright ihleft =>
      by_cases hlevel : (Expression.binary start o left right).level = ℓ
      · rw [Expression.writtenAt_of_le (Nat.le_of_eq hlevel.symm)] at hsize ⊢
        rw [Expression.written_binary]
        change operatorLevel o = ℓ at hlevel
        have hlength := Expression.length_binary start o left right
        have hend := Ends.binary o ((right.writtenAt (operatorLevel o + 1)).toList ++ tail)
        rw [hlevel] at hlength hend ⊢
        have hlink := fun k first (hk : m + 1 ≤ k) (hfirst : left.SameTree first) =>
          reads_link hoperand hop hlevel hright hdigits.binary.2 (by omega) htail hrest hk hfirst
        rcases leftLevel_eq o with hl | hl
        · rw [hlevel] at hl
          rw [Expression.links, if_pos hl] at hn
          rw [hl] at hlength ⊢
          exact ihleft hdigits.binary.1 (by omega) (m := m + 1) (by omega) hend hlink
        · rw [hlevel] at hl
          rw [Expression.links, if_neg (by omega)] at hn
          rw [hl] at hlength ⊢
          exact (hhead left hleft hdigits.binary.1 (by omega) _ hend).bind
            fun first hfirst => hlink n first hn hfirst
      · exact hother (.binary hleft hright) hlevel hdigits hsize (by omega) htail hrest

include hhead hoperand hop in
/-- A level reads what is written for it: a first operand and then as many operators as there are. -/
theorem readsLevel_chained (hℓ : ℓ < 7) (hsigned : ReadsSigned ℓ size head)
    (hrefuse : ∀ rest, Ends ℓ rest → Refuses op rest)
    (hbound : ∀ e : Expression, (e.writtenAt ℓ).length ≤ size → e.links ℓ ≤ bound) :
    ReadsLevel ℓ size (head >>= chained bound op operand) := by
  intro e he hdigits hsize rest hend
  refine reads_chain hhead hoperand hop hℓ hsigned he hdigits hsize (m := 0) ?_ (hend.mono (Nat.le_succ ℓ)) ?_
  · exact (Nat.zero_add _).trans_le (hbound e hsize)
  · intro k first _ hfirst
    refine (reads_chained_nil (hrefuse rest hend)).imp fun e' he' => ?_
    rwa [he']

end

/-! ### The levels -/

theorem Expression.links_le_one {ℓ : Nat} (h : ∀ op, leftLevel op ≠ ℓ) (e : Expression) : e.links ℓ ≤ 1 := by
  cases e with
  | binary start op left right => rw [links, if_neg (h op)]
  | _ => exact Nat.zero_le 1

theorem Expression.links_le_length (ℓ : Nat) : ∀ e : Expression, e.links ℓ ≤ e.written.length
  | .binary start op left right => by
      have hleft := links_le_length ℓ left
      have hwritten := length_written_le (leftLevel op) left
      have hlength := length_binary start op left right
      rw [links]
      split <;> omega
  | .number _ _ => Nat.zero_le _
  | .truth _ _ => Nat.zero_le _
  | .name _ _ => Nat.zero_le _
  | .signed _ _ _ => Nat.zero_le _
  | .call _ _ _ _ => Nat.zero_le _

/-- Only `not` binds as `not` does. -/
theorem Expression.eq_not_of_level {e : Expression} (h : e.level = 2) :
    ∃ start operand, e = .signed start .not operand := by
  cases e with
  | signed start sign operand =>
      cases sign with
      | not => exact ⟨start, operand, rfl⟩
      | minus => cases h
      | plus => cases h
  | binary start op left right => cases op <;> cases h
  | _ => cases h

theorem readsSigned_of_ne {ℓ size : Nat} {p : Parser Expression} (h : ∀ sign : Sign, sign.level ≠ ℓ) :
    ReadsSigned ℓ size p :=
  fun _ sign _ hsign => absurd hsign (h sign)

section

variable {bound size : Nat} {factor : Parser Expression}

/-- A level without signs whose operators can follow one another. -/
theorem readsLevel_leftAssociative {ℓ : Nat} {op : Parser BinaryOp} {operand : Parser Expression}
    (hℓ : ℓ < 7) (hsign : ∀ sign : Sign, sign.level ≠ ℓ) (hoperand : ReadsLevel (ℓ + 1) size operand)
    (hop : ∀ o rest, operatorLevel o = ℓ →
      Reads op (' ' :: ((spelling o).toList ++ ' ' :: rest)) (· = o) (' ' :: rest))
    (hrefuse : ∀ rest, Ends ℓ rest → Refuses op rest)
    (hbound : ∀ e : Expression, (e.writtenAt ℓ).length ≤ size → e.links ℓ ≤ bound) :
    ReadsLevel ℓ size (leftAssociative bound op operand) :=
  readsLevel_chained hoperand hoperand hop hℓ (readsSigned_of_ne hsign) hrefuse hbound

theorem Ends.refuses_operator {ℓ : Nat} {rest : List Char} (h : Ends ℓ rest) {ops : List BinaryOp}
    (hops : ∀ op ∈ ops, ℓ ≤ operatorLevel op ∧ 2 ≤ operatorLevel op) :
    Refuses (Grammar.operator ops) rest := by
  refine refuses_firstOf fun p hp => ?_
  rcases List.mem_map.1 hp with ⟨op, hop, rfl⟩
  have hrefuse := h.operator op (hops op hop).1
  rw [operatorToken, if_neg (Nat.not_lt.2 (hops op hop).2)] at hrefuse
  exact hrefuse.bind

theorem Ends.refuses_wordOperator {ℓ : Nat} {rest : List Char} (h : Ends ℓ rest) {op : BinaryOp}
    (hop : ℓ ≤ operatorLevel op ∧ operatorLevel op < 2) : Refuses (wordOperator op) rest := by
  have hrefuse := h.operator op hop.1
  rw [operatorToken, if_pos hop.2] at hrefuse
  exact hrefuse.bind

theorem readsLevel_power (h : ReadsLevel 7 size factor) : ReadsLevel 6 size (power factor) := by
  refine readsLevel_leftAssociative (by decide) (fun sign => by cases sign <;> decide) h ?_ ?_ ?_
  · intro o rest ho
    refine reads_operator ?_
    cases o <;> first | rfl | cases ho
  · exact fun rest hend => hend.refuses_operator (by decide)
  · exact fun e _ => e.links_le_one fun op => by cases op <;> decide

theorem readsLevel_term (hsize : size ≤ bound) (h : ReadsLevel 7 size factor) :
    ReadsLevel 5 size (term bound factor) := by
  refine readsLevel_leftAssociative (by decide) (fun sign => by cases sign <;> decide)
    (readsLevel_power h) ?_ ?_ ?_
  · intro o rest ho
    refine reads_operator ?_
    cases o <;> first | rfl | cases ho
  · exact fun rest hend => hend.refuses_operator (by decide)
  · intro e he
    exact ((e.links_le_length 5).trans (e.length_written_le 5)).trans (he.trans hsize)

theorem reads_sign {sign : Sign} (h : sign.level = 4) (text : List Char) :
    Reads (firstOf [do literal "-"; return Sign.minus, do literal "+"; return Sign.plus])
      (sign.spelling.toList ++ ' ' :: text) (· = sign) (' ' :: text) := by
  cases sign with
  | minus =>
      refine Reads.orElse (Reads.bind (reads_literal ?_) fun _ _ => .pure rfl)
      rfl
  | plus =>
      have hstops : Stops (· == '-') (dropBlanks (Sign.plus.spelling.toList ++ ' ' :: text)) := stops_cons.2 rfl
      have hminus := refuses_literal (hstops.not_leading (t := "-".toList) rfl)
      refine (Refuses.bind hminus).reads_orElse (Reads.orElse ?_)
      refine Reads.bind (reads_literal ?_) fun _ _ => .pure rfl
      rfl
  | not => cases h

/-- A sign is read in front of a term. -/
theorem readsSigned_arithmetic (hsize : size ≤ bound) (h : ReadsLevel 7 size factor) :
    ReadsSigned 4 size (signedTerm bound factor <|> term bound factor) := by
  intro start sign operand hlevel he hdigits hlength rest hend
  cases he with
  | signed hoperand =>
      have hshorter := Expression.length_signed start sign operand
      rw [Expression.written_signed]
      refine Reads.orElse (reads_start.bind fun offset _ => (reads_sign hlevel _).bind fun sign' hsign' => ?_)
      rw [hlevel] at hshorter ⊢
      have hfits : (operand.writtenAt 5).length ≤ size := Nat.le_of_lt (hshorter.trans_le hlength)
      have hterm := readsLevel_term hsize h operand hoperand hdigits hfits rest hend
      refine (hterm.blanks (dropBlanks_space _)).bind fun operand' hsame => .pure ?_
      rw [hsign', Expression.SameTree, Expression.unplaced, Expression.unplaced, hsame]

theorem refuses_signedTerm {text : List Char} (h : Stops (fun c => c == '-' || c == '+') (dropBlanks text)) :
    Refuses (signedTerm bound factor) text := by
  refine reads_start.refuses_bind fun _ _ => Refuses.bind (refuses_firstOf fun p hp => ?_)
  simp only [List.mem_cons, List.not_mem_nil, or_false] at hp
  rcases hp with rfl | rfl
  · exact (refuses_literal (h.not_leading rfl)).bind
  · exact (refuses_literal (h.not_leading rfl)).bind

theorem readsLevel_arithmetic (hsize : size ≤ bound) (h : ReadsLevel 7 size factor) :
    ReadsLevel 4 size (arithmetic bound factor) := by
  have hterm := readsLevel_term hsize h
  refine readsLevel_chained ?_ hterm ?_ (by decide) (readsSigned_arithmetic hsize h) ?_ ?_
  · intro e he hdigits hlength rest hend
    have hbegins := he.begins 5 hend.nameEnd
    refine Refuses.reads_orElse (refuses_signedTerm ?_) (hterm e he hdigits hlength rest hend)
    rw [hbegins.dropBlanks_eq]
    exact hbegins.stops_sign (Nat.le_refl 5)
  · intro o rest ho
    refine reads_operator ?_
    cases o <;> first | rfl | cases ho
  · exact fun rest hend => hend.refuses_operator (by decide)
  · intro e he
    exact ((e.links_le_length 4).trans (e.length_written_le 4)).trans (he.trans hsize)

theorem readsLevel_relation (hsize : size ≤ bound) (h : ReadsLevel 7 size factor) :
    ReadsLevel 3 size (relation bound factor) := by
  refine readsLevel_leftAssociative (by decide) (fun sign => by cases sign <;> decide)
    (readsLevel_arithmetic hsize h) ?_ ?_ ?_
  · intro o rest ho
    refine reads_operator ?_
    cases o <;> first | rfl | cases ho
  · exact fun rest hend => hend.refuses_operator (by decide)
  · exact fun e _ => e.links_le_one fun op => by cases op <;> decide

theorem readsLevel_inversion (hsize : size ≤ bound) (h : ReadsLevel 7 size factor) :
    ReadsLevel 2 size (inversion bound factor) := by
  have hrelation := readsLevel_relation hsize h
  intro e he hdigits hlength rest hend
  refine reads_start.bind fun offset _ => ?_
  by_cases hlevel : e.level = 2
  · rw [Expression.writtenAt_of_le (Nat.le_of_eq hlevel.symm)] at hlength ⊢
    rcases Expression.eq_not_of_level hlevel with ⟨start, operand, rfl⟩
    cases he with
    | signed hoperand =>
        have hshorter := Expression.length_signed start .not operand
        have hfits : (operand.writtenAt 3).length ≤ size := Nat.le_of_lt (hshorter.trans_le hlength)
        have hread := hrelation operand hoperand hdigits hfits rest (hend.mono (by decide))
        have hnot : Reads (word "not")
            (Sign.not.spelling.toList ++ ' ' :: ((operand.writtenAt 3).toList ++ rest)) (fun _ => True)
            (' ' :: ((operand.writtenAt 3).toList ++ rest)) := reads_word rfl (stops_cons.2 rfl)
        rw [Expression.written_signed]
        refine hnot.optional.bind fun negated hnegated => ?_
        rcases hnegated with ⟨_, rfl, -⟩
        refine (hread.blanks (dropBlanks_space _)).bind fun operand' hsame => .pure ?_
        rw [Expression.SameTree, Expression.unplaced, Expression.unplaced, hsame]
  · rw [← Expression.writtenAt_succ hlevel] at hlength ⊢
    have hnot := (he.begins 3 hend.nameEnd).refuses_not (Nat.le_refl 3)
    refine hnot.optional.bind fun negated hnegated => ?_
    rw [hnegated]
    exact hrelation e he hdigits hlength rest (hend.mono (by decide))

/-- An expression is read if its factors are. -/
theorem readsLevel_expressionOver (hsize : size ≤ bound) (h : ReadsLevel 7 size factor) :
    ReadsLevel 0 size (expressionOver bound factor) := by
  refine readsLevel_leftAssociative (by decide) (fun sign => by cases sign <;> decide)
    (readsLevel_leftAssociative (by decide) (fun sign => by cases sign <;> decide)
      (readsLevel_inversion hsize h) ?_ ?_ ?_) ?_ ?_ ?_
  · intro o rest ho
    cases o <;> first | exact reads_wordOperator (by decide) rest | cases ho
  · exact fun rest hend => hend.refuses_wordOperator (by decide)
  · intro e he
    exact ((e.links_le_length 1).trans (e.length_written_le 1)).trans (he.trans hsize)
  · intro o rest ho
    cases o <;> first | exact reads_wordOperator (by decide) rest | cases ho
  · exact fun rest hend => hend.refuses_wordOperator (by decide)
  · intro e he
    exact ((e.links_le_length 0).trans (e.length_written_le 0)).trans (he.trans hsize)

/-! A factor alone is an expression, and where there is no factor there is none. -/

variable {text rest : List Char} {holds : Expression → Prop}

theorem reads_expressionOver_factor (hfactor : Reads factor text holds rest)
    (hsign : Stops (fun c => c == '-' || c == '+') (dropBlanks text)) (hnot : Refuses (word "not") text)
    (hend : Ends 0 rest) : Reads (expressionOver bound factor) text holds rest := by
  have hoperand : ∀ {n : Nat} {op : Parser BinaryOp} {operand : Parser Expression},
      Reads operand text holds rest →
      Refuses op rest → Reads (leftAssociative n op operand) text holds rest :=
    fun hread hop => hread.bind fun first hfirst => (reads_chained_nil hop).imp fun e he => he ▸ hfirst
  have hterm : Reads (term bound factor) text holds rest :=
    hoperand (hoperand hfactor (hend.refuses_operator (by decide))) (hend.refuses_operator (by decide))
  have harithmetic : Reads (arithmetic bound factor) text holds rest :=
    Reads.bind ((refuses_signedTerm hsign).reads_orElse hterm) fun first hfirst =>
      (reads_chained_nil (hend.refuses_operator (by decide))).imp fun e he => he ▸ hfirst
  have hrelation : Reads (relation bound factor) text holds rest :=
    hoperand harithmetic (hend.refuses_operator (by decide))
  refine hoperand (hoperand ?_ (hend.refuses_wordOperator (by decide))) (hend.refuses_wordOperator (by decide))
  refine reads_start.bind fun _ _ => hnot.optional.bind fun negated hnegated => ?_
  rw [hnegated]
  exact hrelation

theorem refuses_expressionOver (hfactor : Refuses factor text)
    (hsign : Stops (fun c => c == '-' || c == '+') (dropBlanks text)) (hnot : Refuses (word "not") text) :
    Refuses (expressionOver bound factor) text := by
  have hterm : Refuses (term bound factor) text := Refuses.bind (Refuses.bind hfactor)
  have hrelation : Refuses (relation bound factor) text :=
    Refuses.bind (Refuses.bind (Refuses.orElse (refuses_signedTerm hsign) hterm))
  refine Refuses.bind (Refuses.bind (reads_start.refuses_bind fun _ _ => ?_))
  refine hnot.optional.refuses_bind fun negated hnegated => ?_
  rw [hnegated]
  exact hrelation

end

end FlatDae.Source
