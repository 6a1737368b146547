/-
Module: FlatDae.Proofs.WrittenExpressions
Purpose: The text of an expression that keeps its shape. An operand stands in parentheses if the operator
  on its top binds more loosely than its place asks for. The levels of binding go from `or` over `and`,
  `not`, comparisons, sums and signs, products and powers up to atoms. What a written expression begins
  with says which alternatives of the grammar can be meant.
Main exports: Expression.level, Expression.written, Expression.Writable, Expression.numbers, Begins,
  Expression.Writable.begins
-/
import FlatDae.Proofs.NumberReading
import FlatDae.Proofs.Rearrangement

namespace FlatDae.Source

/-! ### Levels -/

/-- How tightly an operator binds. -/
def operatorLevel : BinaryOp → Nat
  | .or => 0
  | .and => 1
  | .eq | .ne | .lt | .le | .gt | .ge => 3
  | .add | .sub => 4
  | .mul | .div => 5
  | .pow => 6

/-- How tightly the left operand of an operator has to bind. Operations of these operators can follow one
    another. -/
def leftLevel (op : BinaryOp) : Nat :=
  match op with
  | .or | .and | .add | .sub | .mul | .div => operatorLevel op
  | _ => operatorLevel op + 1

theorem operatorLevel_lt (op : BinaryOp) : operatorLevel op < 7 := by
  cases op <;> decide

theorem leftLevel_eq (op : BinaryOp) :
    leftLevel op = operatorLevel op ∨ leftLevel op = operatorLevel op + 1 := by
  cases op <;> decide

/-- How tightly a sign binds: as sums do, or between `and` and comparisons. -/
def Sign.level : Sign → Nat
  | .minus | .plus => 4
  | .not => 2

theorem Sign.level_lt (sign : Sign) : sign.level < 7 := by
  cases sign <;> decide

/-- How tightly the operator on top of an expression binds. -/
def Expression.level : Expression → Nat
  | .signed _ sign _ => sign.level
  | .binary _ op _ _ => operatorLevel op
  | _ => 7

/-- A text, in parentheses if it binds more loosely than is needed. -/
def enclosed (needed level : Nat) (text : String) : String :=
  if level < needed then "(" ++ text ++ ")" else text

/-- The output that a call selects. -/
def writtenIndex : Option Nat → String
  | some k => "\x7b" ++ toString k ++ "\x7d"
  | none => ""

mutual

/-- The text of an expression, with parentheses around the operands that bind too loosely. -/
def Expression.written : Expression → String
  | .number _ value => Decimal.text value
  | .truth _ value => if value then "true" else "false"
  | .name _ name => name
  | .signed _ sign operand => sign.spelling ++ " " ++ enclosed (sign.level + 1) operand.level operand.written
  | .binary _ op left right =>
    enclosed (leftLevel op) left.level left.written ++ " " ++ spelling op ++ " " ++
      enclosed (operatorLevel op + 1) right.level right.written
  | .call _ function args output =>
    function ++ "(" ++ writtenArguments args ++ ")" ++ writtenIndex output

/-- The arguments of a call. -/
def writtenArguments : List Expression → String
  | [] => ""
  | [e] => e.written
  | e :: es => e.written ++ ", " ++ writtenArguments es

end

namespace Expression

/-- The text of an expression at a place that asks for a level. -/
def writtenAt (needed : Nat) (e : Expression) : String := enclosed needed e.level e.written

theorem writtenAt_of_le {ℓ : Nat} {e : Expression} (h : ℓ ≤ e.level) : e.writtenAt ℓ = e.written :=
  if_neg (Nat.not_lt.2 h)

theorem writtenAt_of_lt {ℓ : Nat} {e : Expression} (h : e.level < ℓ) :
    e.writtenAt ℓ = "(" ++ e.written ++ ")" :=
  if_pos h

/-- The lowest level needs no parentheses. -/
@[simp] theorem writtenAt_zero (e : Expression) : e.writtenAt 0 = e.written := writtenAt_of_le (Nat.zero_le _)

/-- An expression of another level is written for the next level as for this one. -/
theorem writtenAt_succ {ℓ : Nat} {e : Expression} (h : e.level ≠ ℓ) : e.writtenAt (ℓ + 1) = e.writtenAt ℓ := by
  rcases Nat.lt_or_gt_of_ne h with h | h
  · rw [writtenAt_of_lt h, writtenAt_of_lt (Nat.lt_succ_of_lt h)]
  · rw [writtenAt_of_le h, writtenAt_of_le (Nat.le_of_lt h)]

/-- A sign stands in front of its operand. -/
theorem written_signed (start : Nat) (sign : Sign) (operand : Expression) (rest : List Char) :
    (signed start sign operand).written.toList ++ rest =
      sign.spelling.toList ++ ' ' :: ((operand.writtenAt (sign.level + 1)).toList ++ rest) := by
  simp [written, writtenAt]

/-- An operator stands between its operands. -/
theorem written_binary (start : Nat) (op : BinaryOp) (left right : Expression) (rest : List Char) :
    (binary start op left right).written.toList ++ rest =
      (left.writtenAt (leftLevel op)).toList ++ ' ' :: ((spelling op).toList ++
        ' ' :: ((right.writtenAt (operatorLevel op + 1)).toList ++ rest)) := by
  simp [written, writtenAt]

/-! Operands are written in fewer characters. -/

theorem length_written_le (ℓ : Nat) (e : Expression) : e.written.length ≤ (e.writtenAt ℓ).length := by
  rcases Nat.lt_or_ge e.level ℓ with h | h
  · rw [writtenAt_of_lt h, String.length_append, String.length_append]
    omega
  · rw [writtenAt_of_le h]

theorem length_writtenAt_of_lt {ℓ : Nat} {e : Expression} (h : e.level < ℓ) :
    (e.writtenAt ℓ).length = e.written.length + 2 := by
  rw [writtenAt_of_lt h, String.length_append, String.length_append]
  change 1 + e.written.length + 1 = _
  omega

theorem length_signed (start : Nat) (sign : Sign) (operand : Expression) :
    (operand.writtenAt (sign.level + 1)).length < (signed start sign operand).written.length := by
  have h := congrArg List.length (written_signed start sign operand [])
  simp only [List.append_nil, String.length_toList, List.length_append, List.length_cons] at h
  omega

theorem length_binary (start : Nat) (op : BinaryOp) (left right : Expression) :
    (left.writtenAt (leftLevel op)).length + (right.writtenAt (operatorLevel op + 1)).length <
      (binary start op left right).written.length := by
  have h := congrArg List.length (written_binary start op left right [])
  simp only [List.append_nil, String.length_toList, List.length_append, List.length_cons] at h
  omega

end Expression

/-! ### Arguments -/

/-- The arguments behind the first one. -/
def writtenFurther : List Expression → String
  | [] => ""
  | e :: es => ", " ++ e.written ++ writtenFurther es

theorem writtenArguments_cons (e : Expression) (es : List Expression) :
    writtenArguments (e :: es) = e.written ++ writtenFurther es := by
  induction es generalizing e with
  | nil => exact (String.append_empty).symm
  | cons e' es ih =>
      rw [writtenArguments, ih, writtenFurther, String.append_assoc, String.append_assoc]
      simp

theorem length_writtenFurther (es : List Expression) :
    es.length ≤ (writtenFurther es).length ∧ ∀ e ∈ es, e.written.length ≤ (writtenFurther es).length := by
  induction es with
  | nil => exact ⟨Nat.le_refl 0, fun _ h => nomatch h⟩
  | cons e es ih =>
      have hcomma : ", ".length = 2 := rfl
      rw [writtenFurther, String.length_append, String.length_append, hcomma]
      refine ⟨?_, fun e' he' => ?_⟩
      · rw [List.length_cons]
        omega
      · rcases List.mem_cons.1 he' with rfl | he'
        · omega
        · have := ih.2 e' he'
          omega

/-- No argument is longer than all of them, and there are hardly more than there are characters. -/
theorem length_writtenArguments (es : List Expression) :
    es.length ≤ (writtenArguments es).length + 1 ∧
      ∀ e ∈ es, e.written.length ≤ (writtenArguments es).length := by
  cases es with
  | nil => exact ⟨Nat.zero_le _, fun _ h => nomatch h⟩
  | cons e es =>
      have hfurther := length_writtenFurther es
      rw [writtenArguments_cons, String.length_append, List.length_cons]
      refine ⟨by omega, fun e' he' => ?_⟩
      rcases List.mem_cons.1 he' with rfl | he'
      · omega
      · have := hfurther.2 e' he'
        omega

namespace Expression

theorem written_call (start : Nat) (function : String) (args : List Expression) (output : Option Nat)
    (rest : List Char) :
    (call start function args output).written.toList ++ rest =
      function.toList ++ '(' :: ((writtenArguments args).toList ++
        ')' :: ((writtenIndex output).toList ++ rest)) := by
  simp [written]

theorem length_call (start : Nat) (function : String) (args : List Expression) (output : Option Nat) :
    (writtenArguments args).length + 2 ≤ (call start function args output).written.length := by
  have h := congrArg List.length (written_call start function args output [])
  simp only [List.append_nil, String.length_toList, List.length_append, List.length_cons] at h
  omega

/-! ### What can be written -/

/-- The expression is built from names, finite numbers without a sign and outputs that fit. -/
inductive Writable : Expression → Prop where
  | number {start : Nat} {value : Float} {significand : Nat} {exponent : Int}
      (hvalue : Binary64.ofFloat value = .finite false significand exponent) : Writable (.number start value)
  | truth {start : Nat} {value : Bool} : Writable (.truth start value)
  | name {start : Nat} {n : String} (hname : IsName n) : Writable (.name start n)
  | signed {start : Nat} {sign : Sign} {operand : Expression} (hoperand : operand.Writable) :
      Writable (.signed start sign operand)
  | binary {start : Nat} {op : BinaryOp} {left right : Expression} (hleft : left.Writable)
      (hright : right.Writable) : Writable (.binary start op left right)
  | call {start : Nat} {function : String} {args : List Expression} {output : Option Nat}
      (hname : IsName function) (hargs : ∀ a ∈ args, a.Writable) (houtput : ∀ k ∈ output, k < outputLimit) :
      Writable (.call start function args output)

end Expression

mutual

/-- The numbers of an expression. -/
def Expression.numbers : Expression → List Float
  | .number _ value => [value]
  | .signed _ _ operand => operand.numbers
  | .binary _ _ left right => left.numbers ++ right.numbers
  | .call _ _ args _ => numbersAll args
  | _ => []

/-- The numbers of several expressions. -/
def numbersAll : List Expression → List Float
  | [] => []
  | e :: es => e.numbers ++ numbersAll es

end

theorem mem_numbersAll {v : Float} {es : List Expression} {e : Expression} (he : e ∈ es) (hv : v ∈ e.numbers) :
    v ∈ numbersAll es := by
  induction he with
  | head es => exact List.mem_append_left _ hv
  | tail b _ ih => exact List.mem_append_right _ ih

/-! ### Beginnings -/

/-- How the text of an operand begins: with a parenthesis, a sign if its place allows one, a digit, or a
    word, which is `not` only if its place allows that. -/
inductive Begins (ℓ : Nat) : List Char → Prop where
  | parenthesis {cs : List Char} : Begins ℓ ('(' :: cs)
  | minus {cs : List Char} (hℓ : ℓ ≤ 4) : Begins ℓ ('-' :: cs)
  | plus {cs : List Char} (hℓ : ℓ ≤ 4) : Begins ℓ ('+' :: cs)
  | digit {c : Char} {cs : List Char} (hc : c.isDigit) : Begins ℓ (c :: cs)
  | word {w cs : List Char} (hchars : ∀ c ∈ w, isNameChar c) (hne : w ≠ []) (hnot : w = "not".toList → ℓ ≤ 2)
      (hend : Stops isNameChar cs) : Begins ℓ (w ++ cs)

namespace Begins

variable {ℓ : Nat} {text : List Char}

theorem mono {ℓ' : Nat} (h : Begins ℓ' text) (hle : ℓ ≤ ℓ') : Begins ℓ text := by
  cases h with
  | parenthesis => exact .parenthesis
  | minus hℓ => exact .minus (hle.trans hℓ)
  | plus hℓ => exact .plus (hle.trans hℓ)
  | digit hc => exact .digit hc
  | word hchars hne hnot hend => exact .word hchars hne (fun h => hle.trans (hnot h)) hend

/-- What stands in parentheses begins with one. -/
theorem writtenAt {e : Expression} {rest : List Char}
    (h : ℓ ≤ e.level → Begins ℓ (e.written.toList ++ rest)) : Begins ℓ ((e.writtenAt ℓ).toList ++ rest) := by
  rcases Nat.lt_or_ge e.level ℓ with hlevel | hlevel
  · rw [Expression.writtenAt_of_lt hlevel, String.toList_append, String.toList_append]
    exact .parenthesis
  · rw [Expression.writtenAt_of_le hlevel]
    exact h hlevel

theorem ne_nil (h : Begins ℓ text) : text ≠ [] := by
  cases h with
  | word hchars hne hnot hend => exact fun hnil => hne (List.append_eq_nil_iff.1 hnil).1
  | _ => exact List.cons_ne_nil _ _

/-- No blank and no comment stands in front of an operand. -/
theorem dropBlanks_eq (h : Begins ℓ text) : dropBlanks text = text := by
  cases h with
  | parenthesis => rfl
  | minus hℓ => rfl
  | plus hℓ => rfl
  | digit hc => exact dropBlanks_nameChar (isNameChar_of_isDigit hc) _
  | word hchars hne hnot hend => exact dropBlanks_word hchars hne _

/-- An operand of a comparison or anything tighter does not begin with `not`. -/
theorem refuses_not (h : Begins ℓ text) (hℓ : 3 ≤ ℓ) : Parser.Refuses (Parser.word "not") text := by
  refine Parser.refuses_word fun rest hrest hend => ?_
  rw [h.dropBlanks_eq] at hrest
  have htake : text.takeWhile isNameChar = "not".toList := by
    rw [hrest, takeWhile_run (isNameChar_of_keyword (by decide)) hend]
  cases h with
  | parenthesis => cases hrest
  | minus _ => cases hrest
  | plus _ => cases hrest
  | digit hc =>
      obtain ⟨rfl, -⟩ := List.cons.inj hrest
      exact absurd hc (by decide)
  | word hchars hne hnot hend' =>
      rw [takeWhile_run hchars hend'] at htake
      exact absurd (hnot htake) (by omega)

/-- An operand of a product or anything tighter does not begin with a sign. -/
theorem stops_sign (h : Begins ℓ text) (hℓ : 5 ≤ ℓ) : Stops (fun c => c == '-' || c == '+') text := by
  have hsign : ∀ {c : Char} {cs : List Char}, isNameChar c →
      Stops (fun c => c == '-' || c == '+') (c :: cs) := by
    intro c cs hc
    refine stops_cons.2 (Bool.eq_false_iff.2 fun hsign => ?_)
    simp only [Bool.or_eq_true, beq_iff_eq] at hsign
    rcases hsign with rfl | rfl <;> exact absurd hc (by decide)
  cases h with
  | parenthesis => exact stops_cons.2 rfl
  | minus hℓ' => omega
  | plus hℓ' => omega
  | digit hc => exact hsign (isNameChar_of_isDigit hc)
  | word hchars hne hnot hend =>
      rcases List.exists_cons_of_ne_nil hne with ⟨c, cs, rfl⟩
      exact hsign (hchars c List.mem_cons_self)

/-- The words that can stand at the beginning of an operand. -/
theorem keyword {w : String} (hw : w ∈ keywords) (hnot : w = "not" → ℓ ≤ 2) {rest : List Char}
    (hrest : Stops isNameChar rest) : Begins ℓ (w.toList ++ rest) :=
  .word (isNameChar_of_keyword hw) (keyword_ne_nil hw) (fun h => hnot (String.toList_inj.1 h)) hrest

/-- A name is a word other than `not`. -/
theorem name {n : String} (hn : IsName n) {rest : List Char} (hrest : Stops isNameChar rest) :
    Begins ℓ (n.toList ++ rest) := by
  refine .word hn.chars hn.ne_nil (fun hnot => ?_) hrest
  have hkeyword := hn.noKeyword
  rw [String.toList_inj.1 hnot] at hkeyword
  exact absurd (by decide) hkeyword

end Begins

namespace Expression

theorem Writable.begins {e : Expression} (he : e.Writable) (ℓ : Nat) {rest : List Char}
    (hrest : Stops isNameChar rest) : Begins ℓ ((e.writtenAt ℓ).toList ++ rest) := by
  induction he generalizing ℓ rest with
  | number hvalue =>
      refine .writtenAt fun _ => ?_
      rcases (Decimal.text_isMantissa hvalue).exists_cons with ⟨c, cs, hcs, hc⟩
      rw [written, hcs]
      exact .digit hc
  | @truth start value =>
      refine .writtenAt fun _ => ?_
      cases value with
      | true =>
          change Begins ℓ ("true".toList ++ rest)
          exact .keyword (by decide) (fun h => absurd h (by decide)) hrest
      | false =>
          change Begins ℓ ("false".toList ++ rest)
          exact .keyword (by decide) (fun h => absurd h (by decide)) hrest
  | name hname => exact .writtenAt fun _ => .name hname hrest
  | @signed start sign operand hoperand ih =>
      refine .writtenAt fun hlevel => ?_
      simp only [written, String.toList_append, List.append_assoc]
      cases sign with
      | minus => exact .minus hlevel
      | plus => exact .plus hlevel
      | not => exact .keyword (by decide) (fun _ => hlevel) (stops_cons.2 rfl)
  | @binary start op left right hleft hright ihleft ihright =>
      refine .writtenAt fun hlevel => ?_
      simp only [written, String.toList_append, List.append_assoc]
      refine Begins.mono (ihleft (leftLevel op) ?_) (Nat.le_trans hlevel ?_)
      · exact stops_cons.2 rfl
      · rcases leftLevel_eq op with h | h <;> rw [h]
        · exact Nat.le_refl _
        · exact Nat.le_succ _
  | @call start function args output hname hargs houtput ih =>
      refine .writtenAt fun _ => ?_
      simp only [written, String.append_assoc, String.toList_append, List.append_assoc]
      exact .name hname (stops_cons.2 rfl)

end Expression

end FlatDae.Source
