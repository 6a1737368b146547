/-
Module: FlatDae.Proofs.TextAnswers
Purpose: Which texts have an answer. For every text but those in which a call selects an output with a
  number of 2^64 or more, reading in two passes and building with checked lookups ends with a model or with
  an error, and it is the one that the text has. In those texts the number of the output is the one defect,
  and it is met while the text is read.
Main exports: Expression.SelectsBeyond, outputsFit_eq_false_iff, SelectsTooLarge, parse_eq_tooLarge_iff,
  Model.ofTextChecked_eq, Model.ofText_defects
-/
import FlatDae.Proofs.CheckedLookups
import FlatDae.Proofs.DeclarationAgreement
import FlatDae.Proofs.ExpressionPlaces

namespace FlatDae

namespace Source

/-! ### Numbers of outputs -/

/-- The expression is a call that selects an output with a number beyond 64 bits. -/
def Expression.SelectsBeyond (e : Expression) : Prop :=
  ∃ start function args number, e = .call start function args (some number) ∧ outputLimit ≤ number

namespace Expression

/-- What fits has operands that fit. -/
theorem outputsFit_operand {operand e : Expression} (hfit : e.outputsFit = true)
    (h : operand ∈ e.operands) : operand.outputsFit = true := by
  cases e with
  | number | truth | name => cases h
  | signed start sign child =>
      obtain rfl := List.mem_singleton.1 h
      exact hfit
  | binary start op left right =>
      have hboth : left.outputsFit = true ∧ right.outputsFit = true := Bool.and_eq_true_iff.1 hfit
      rcases List.mem_cons.1 h with rfl | h
      · exact hboth.1
      · obtain rfl := List.mem_singleton.1 h
        exact hboth.2
  | call start function args output =>
      have hargs : outputsFitAll args = true := (Bool.and_eq_true_iff.1 hfit).1
      rw [outputsFitAll_eq_all, List.all_eq_true] at hargs
      exact hargs operand h

theorem Within.outputsFit {x e : Expression} (h : x.Within e) (hfit : e.outputsFit = true) :
    x.outputsFit = true := by
  induction h with
  | self => exact hfit
  | deeper hop _ ih => exact ih (outputsFit_operand hfit hop)

theorem SelectsBeyond.outputsFit {e : Expression} (h : e.SelectsBeyond) : e.outputsFit = false := by
  obtain ⟨start, function, args, number, rfl, hnumber⟩ := h
  rw [Expression.outputsFit, Option.all_some, decide_eq_false (Nat.not_lt.2 hnumber), Bool.and_false]

end Expression

mutual

/-- What does not fit has a call within it that selects an output beyond 64 bits. -/
theorem Expression.exists_selectsBeyond : ∀ e : Expression, e.outputsFit = false →
    ∃ x : Expression, x.Within e ∧ x.SelectsBeyond
  | .number _ _, h | .truth _ _, h | .name _ _, h => by cases h
  | .signed _ _ operand, h => by
      obtain ⟨x, hin, hx⟩ := operand.exists_selectsBeyond h
      exact ⟨x, .deeper List.mem_cons_self hin, hx⟩
  | .binary _ _ left right, h => by
      rcases Bool.and_eq_false_iff.1 h with h | h
      · obtain ⟨x, hin, hx⟩ := left.exists_selectsBeyond h
        exact ⟨x, .deeper List.mem_cons_self hin, hx⟩
      · obtain ⟨x, hin, hx⟩ := right.exists_selectsBeyond h
        exact ⟨x, .deeper (List.mem_cons_of_mem _ List.mem_cons_self) hin, hx⟩
  | .call start function args output, h => by
      rcases Bool.and_eq_false_iff.1 h with h | h
      · obtain ⟨arg, harg, x, hin, hx⟩ := exists_selectsBeyond_of_all args h
        exact ⟨x, .deeper harg hin, hx⟩
      · obtain ⟨number, rfl, hnumber⟩ := (Option.all_eq_false _ _).1 h
        exact ⟨_, .self _, start, function, args, number, rfl, by simpa using hnumber⟩

theorem exists_selectsBeyond_of_all : ∀ es : List Expression, outputsFitAll es = false →
    ∃ e ∈ es, ∃ x : Expression, x.Within e ∧ x.SelectsBeyond
  | [], h => by cases h
  | e :: es, h => by
      rcases Bool.and_eq_false_iff.1 h with h | h
      · exact ⟨e, List.mem_cons_self, e.exists_selectsBeyond h⟩
      · obtain ⟨e', he', hx⟩ := exists_selectsBeyond_of_all es h
        exact ⟨e', List.mem_cons_of_mem _ he', hx⟩

end

/-- Expressions fit unless a call within one of them selects an output beyond 64 bits. -/
theorem outputsFitAll_eq_false_iff (es : List Expression) :
    outputsFitAll es = false ↔ ∃ e ∈ es, ∃ x : Expression, x.Within e ∧ x.SelectsBeyond := by
  constructor
  · exact exists_selectsBeyond_of_all es
  · rintro ⟨e, he, x, hin, hx⟩
    rw [← Bool.not_eq_true, outputsFitAll_eq_all, List.all_eq_true]
    intro hall
    have hfit := hin.outputsFit (hall e he)
    rw [hx.outputsFit] at hfit
    cases hfit

/-! ### Texts -/

/-- The text follows the grammar, and somewhere in its expressions a call selects an output with a number of
    2^64 or more. -/
def SelectsTooLarge (text : String) : Prop :=
  ∃ tree rest, (Grammar.wholeText text.length).run (.ofString text) = some (tree, rest) ∧
    ∃ e ∈ tree.expressions, ∃ x : Expression, x.Within e ∧ x.SelectsBeyond

theorem parse_eq_tooLarge_iff (text : String) :
    parse text = .error .outputTooLarge ↔ SelectsTooLarge text := by
  unfold parse SelectsTooLarge
  cases (Grammar.wholeText text.length).run (.ofString text) with
  | none => simp
  | some read =>
      obtain ⟨tree, rest⟩ := read
      simp only [Option.some.injEq, Prod.mk.injEq, exists_and_left, and_assoc, exists_eq_left']
      rw [← outputsFitAll_eq_false_iff]
      cases outputsFitAll tree.expressions <;> simp

/-- A defect is met in reading exactly the texts that select too large an output. -/
theorem parseChecked_eq_error_iff (text : String) (d : Defect) :
    parseChecked text = .error d ↔ d = .tooLarge ∧ SelectsTooLarge text := by
  rw [← parse_eq_tooLarge_iff, parseChecked_eq]
  cases parse text with
  | ok tree => simp
  | error failure => cases failure <;> simp [eq_comm]

end Source

namespace Model

open Source (Defect SelectsTooLarge)

/-- Building a text that is read meets no defect. -/
theorem ofTextChecked_eq (text : String) : ofTextChecked text =
    match Source.parse text with
    | .error .outputTooLarge => .error .tooLarge
    | _ => .ok (ofText text) := by
  unfold ofTextChecked ofText
  rw [Source.parseChecked_eq]
  cases Source.parse text with
  | error failure => cases failure <;> rfl
  | ok tree =>
      change (Elaboration.elaborateChecked tree >>= _) = _
      rw [Elaboration.elaborateChecked_eq]
      simp only
      cases Elaboration.elaborateModel tree <;> rfl

theorem ofTextChecked_eq_error_iff (text : String) (d : Defect) :
    ofTextChecked text = .error d ↔ d = .tooLarge ∧ SelectsTooLarge text := by
  rw [← Source.parse_eq_tooLarge_iff, ofTextChecked_eq]
  cases Source.parse text with
  | ok tree => simp
  | error failure => cases failure <;> simp [eq_comm]

/-- **Every text has an answer, unless it selects too large an output.** Reading a text, and building its
    model, meet a defect only where a call selects an output with a number of 2^64 or more, and that number
    is the defect: no part of the text is missing or of an unexpected rule, no token is an unknown word or no
    number, and no name or place is looked up in vain. Of every other text reading ends with its tree or with
    the error that it follows no rule, and building with its model or with all its faults. -/
theorem ofText_defects (text : String) :
    (∀ d, Source.parseChecked text = .error d ↔ d = .tooLarge ∧ SelectsTooLarge text) ∧
    (∀ d, ofTextChecked text = .error d ↔ d = .tooLarge ∧ SelectsTooLarge text) ∧
    (¬ SelectsTooLarge text →
      Source.parseChecked text = .ok (Source.parse text) ∧ ofTextChecked text = .ok (ofText text)) := by
  refine ⟨Source.parseChecked_eq_error_iff text, ofTextChecked_eq_error_iff text, fun hsmall => ?_⟩
  rw [← Source.parse_eq_tooLarge_iff] at hsmall
  rw [Source.parseChecked_eq, ofTextChecked_eq]
  cases hread : Source.parse text with
  | ok tree => exact ⟨rfl, rfl⟩
  | error failure =>
      cases failure with
      | malformed => exact ⟨rfl, rfl⟩
      | outputTooLarge => exact absurd hread hsmall

/-- A text with a component, a call that selects the second output of a function, and an unknown name. -/
def secondOutputText : String :=
  "model A Real x = 1; function f(a) = (a, 2 * a); equation f(x)\x7b1\x7d = y; end A;"

set_option maxRecDepth 100000 in
theorem parse_secondOutputText_isOk : (Source.parse secondOutputText).isOk = true := by decide +kernel

theorem ofText_defects_secondOutputText : ¬ SelectsTooLarge secondOutputText ∧
    Source.parseChecked secondOutputText = .ok (Source.parse secondOutputText) ∧
    ofTextChecked secondOutputText = .ok (ofText secondOutputText) := by
  have hsmall : ¬ SelectsTooLarge secondOutputText := by
    rw [← Source.parse_eq_tooLarge_iff]
    intro hread
    have hok := parse_secondOutputText_isOk
    rw [hread] at hok
    cases hok
  exact ⟨hsmall, (ofText_defects secondOutputText).2.2 hsmall⟩

/-- A text with a call that selects the output 2^64. -/
def largeOutputText : String := "model A equation x = f()\x7b18446744073709551616\x7d; end A;"

set_option maxRecDepth 100000 in
theorem ofTextChecked_largeOutputText : (ofTextChecked largeOutputText).isOk = false := by decide +kernel

/-- So not every text has an answer. -/
theorem ofText_defects_largeOutputText : ¬ ∀ text, ∃ answer, ofTextChecked text = .ok answer := by
  intro hall
  obtain ⟨answer, hanswer⟩ := hall largeOutputText
  have hdefect := ofTextChecked_largeOutputText
  rw [hanswer] at hdefect
  cases hdefect

end Model

end FlatDae
