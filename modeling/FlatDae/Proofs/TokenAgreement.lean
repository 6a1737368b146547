/-
Module: FlatDae.Proofs.TokenAgreement
Purpose: The characters of a token are enough to tell what the token means. What a token parser takes is one
  of the words that the token has, or digits, or a numeral; and every numeral is the text of a number, with
  or without a point, with or without an exponent, whatever the letter of the exponent.
Main exports: takes_operator, takes_qualifier, takes_digits, takes_numeral, operatorOf_spelling,
  qualifierOf_spelling
-/
import FlatDae.Proofs.PairReading
import FlatDae.Proofs.ParserAgreement
import FlatDae.Proofs.TextReading

namespace FlatDae.Source

open FlatDae.Source.Parser

/-! ### Numerals -/

/-- The characters of an exponent, or nothing. -/
def IsExponent (text : List Char) : Prop :=
  (Decimal.exponentOf? text).isSome ∧ Stops (fun a => a.isDigit || a == '.') text

namespace IsNumeralHead

variable {head exponent : List Char} (h : IsNumeralHead head) (hdigit : ∃ a ∈ head, a.isDigit)
  (hexponent : IsExponent exponent)
include h hdigit hexponent

theorem readUnsigned?_isSome (negative : Bool) :
    (Decimal.readUnsigned? negative (head ++ exponent)).isSome := by
  obtain ⟨hread, hstops⟩ := hexponent
  have hend : Stops Char.isDigit exponent := hstops.imp fun a ha => by rw [ha, Bool.true_or]
  have hpoint (rest : List Char) : Stops Char.isDigit ('.' :: rest) := stops_cons.2 rfl
  unfold Decimal.readUnsigned?
  cases h with
  | @whole digits hdigits hne =>
      simp only [takeWhile_run hdigits hend, dropWhile_run hdigits hend]
      split
      · exact absurd (stops_cons.1 hstops) (by decide)
      · simpa [hne] using hread
  | @point digits fraction hdigits hfraction =>
      have hne : ¬ (digits = [] ∧ fraction = []) := by
        rintro ⟨rfl, rfl⟩
        simp at hdigit
      simp only [List.append_assoc, List.cons_append, takeWhile_run hdigits (hpoint _),
        dropWhile_run hdigits (hpoint _), takeWhile_run hfraction hend, dropWhile_run hfraction hend]
      simpa [hne] using hread

/-- A numeral with an exponent or without one is the text of a number. -/
theorem read?_isSome : (Decimal.read? (String.ofList (head ++ exponent))).isSome := by
  have hunsigned := h.readUnsigned?_isSome hdigit hexponent false
  unfold Decimal.read?
  simp only [String.toList_ofList, h.takeSign_eq]
  split
  · rfl
  · rfl
  · rfl
  · exact hunsigned

end IsNumeralHead

namespace Grammar

variable {c c' : Cursor}

/-- There is a digit on one side of the point. -/
theorem exists_digit_of_mantissa {digits : List Char} (h : mantissa c = some (digits, c')) :
    ∃ a ∈ digits, a.isDigit := by
  obtain ⟨whole, c₁, hwhole, h⟩ := bind_eq_some_iff.1 h
  have hdigits := (passes_takeWhile hwhole).2
  split at h
  · obtain ⟨_, c₂, -, h⟩ := bind_eq_some_iff.1 h
    obtain ⟨fraction, c₃, htake, h⟩ := bind_eq_some_iff.1 h
    split at h
    · cases h
    · rename_i hne
      obtain ⟨rfl, -⟩ := pure_eq_some_iff.1 h
      obtain ⟨a, as, rfl⟩ := List.exists_cons_of_ne_nil (mt List.isEmpty_iff.2 hne)
      exact ⟨a, by simp, (passes_takeWhile htake).2 a List.mem_cons_self⟩
  · rename_i hne
    obtain ⟨a, as, rfl⟩ := List.exists_cons_of_ne_nil (mt List.isEmpty_iff.2 hne)
    refine ⟨a, ?_, hdigits a List.mem_cons_self⟩
    rcases or_of_orElse h with h | h
    · obtain ⟨_, c₂, -, h⟩ := bind_eq_some_iff.1 h
      obtain ⟨fraction, c₃, -, h⟩ := bind_eq_some_iff.1 h
      obtain ⟨rfl, -⟩ := pure_eq_some_iff.1 h
      exact List.mem_append_left _ List.mem_cons_self
    · obtain ⟨rfl, -⟩ := pure_eq_some_iff.1 h
      exact List.mem_cons_self

/-- What is taken for an exponent is one. -/
theorem isExponent_of_exponent {power : List Char} (h : exponent c = some (power, c')) :
    IsExponent power := by
  obtain ⟨_, c₁, -, h⟩ := bind_eq_some_iff.1 h
  obtain ⟨sign, c₂, hsign, h⟩ := bind_eq_some_iff.1 h
  obtain ⟨digits, c₃, htake, h⟩ := bind_eq_some_iff.1 h
  have hdigits := (passes_takeWhile htake).2
  split at h
  · cases h
  · rename_i hne
    obtain ⟨rfl, -⟩ := pure_eq_some_iff.1 h
    obtain ⟨a, as, rfl⟩ := List.exists_cons_of_ne_nil (mt List.isEmpty_iff.2 hne)
    have hall : (a :: as).all Char.isDigit = true := List.all_eq_true.2 hdigits
    obtain ⟨p, hp, hread⟩ := exists_of_firstOf hsign
    simp only [List.mem_cons, List.not_mem_nil, or_false] at hp
    refine ⟨?_, stops_cons.2 rfl⟩
    rcases hp with rfl | rfl | rfl
    · obtain ⟨rfl, -⟩ := of_returning hread
      simp only [Decimal.exponentOf?, Decimal.takeSign, List.cons_append, List.nil_append, hall]
      rfl
    · obtain ⟨rfl, -⟩ := of_returning hread
      simp only [Decimal.exponentOf?, Decimal.takeSign, List.cons_append, List.nil_append, hall]
      rfl
    · obtain ⟨rfl, -⟩ := pure_eq_some_iff.1 hread
      have hsign : Decimal.takeSign (a :: as) = (false, a :: as) := by
        simpa using (IsNumeralHead.whole hdigits (List.cons_ne_nil a as)).takeSign_eq []
      simp only [Decimal.exponentOf?, List.cons_append, List.nil_append, hsign, hall]
      rfl

/-- The characters of a number are read as the number that the grammar finds in them, and there always is
    one. -/
theorem takes_numeral : Takes Pairs.numeral fun digits taken =>
    ∃ value, Decimal.read? (String.ofList taken) = some value ∧
      Decimal.read? (String.ofList digits) = some value := by
  intro c chars c' _ h
  obtain ⟨digits, c₁, hmantissa, h⟩ := bind_eq_some_iff.1 h
  obtain ⟨power, c₂, hpower, h⟩ := bind_eq_some_iff.1 h
  obtain ⟨rfl, rfl⟩ := pure_eq_some_iff.1 h
  obtain ⟨hpasses, hhead⟩ := passes_mantissa hmantissa
  have hdigit := exists_digit_of_mantissa hmantissa
  rcases or_of_orElse hpower with hpower | hpower
  · obtain ⟨value, hvalue⟩ := Option.isSome_iff_exists.1
      (hhead.read?_isSome hdigit (isExponent_of_exponent hpower))
    obtain ⟨letter, exponent, rfl | rfl, rfl, htaken⟩ := passes_exponent hpower
    · exact ⟨_, hpasses.append htaken, value, hvalue, hvalue⟩
    · exact ⟨_, hpasses.append htaken, value, (hhead.read?_capital exponent).trans hvalue, hvalue⟩
  · obtain ⟨rfl, rfl⟩ := pure_eq_some_iff.1 hpower
    have hsome : (Decimal.read? (String.ofList (digits ++ []))).isSome :=
      hhead.read?_isSome hdigit ⟨rfl, stops_nil _⟩
    obtain ⟨value, hvalue⟩ := Option.isSome_iff_exists.1 hsome
    rw [List.append_nil] at hvalue ⊢
    exact ⟨digits, hpasses, value, hvalue, hvalue⟩

end Grammar

/-! ### Words -/

namespace Parser

theorem takes_literal (t : String) : Takes (literal t) fun _ taken => taken = t.toList := by
  intro c _ c' hc h
  rw [literal_eq, hc] at h
  exact ⟨_, passes_exactly h, rfl⟩

theorem takes_word (t : String) : Takes (word t) fun _ taken => taken = t.toList := by
  intro c _ c' hc h
  obtain ⟨_, c₁, hliteral, hend⟩ := bind_eq_some_iff.1 h
  rw [atNameEnd_eq] at hend
  split at hend
  · obtain ⟨-, rfl⟩ := Prod.mk.inj (Option.some.inj hend)
    exact takes_literal t hc hliteral
  · cases hend

variable {α β : Type} {p q : Parser α} {T : α → List Char → Prop}

theorem Takes.returning {p : Parser Unit} {w : List Char} (h : Takes p fun _ taken => taken = w) (a : α) :
    Takes (do p; return a : Parser α) fun b taken => b = a ∧ taken = w := by
  intro c b c' hc hread
  obtain ⟨rfl, hp⟩ := of_returning hread
  obtain ⟨taken, hpasses, htaken⟩ := h hc hp
  exact ⟨taken, hpasses, rfl, htaken⟩

theorem Takes.imp {S : α → List Char → Prop} (h : Takes p T) (himp : ∀ a taken, T a taken → S a taken) :
    Takes p S := by
  intro c a c' hc hread
  obtain ⟨taken, hpasses, hT⟩ := h hc hread
  exact ⟨taken, hpasses, himp _ _ hT⟩

theorem Takes.orElse (hp : Takes p T) (hq : Takes q T) : Takes (p <|> q) T := by
  intro c a c' hc hread
  exact (or_of_orElse hread).elim (hp hc) (hq hc)

theorem Takes.firstOf {ps : List (Parser α)} (h : ∀ p ∈ ps, Takes p T) : Takes (firstOf ps) T := by
  intro c a c' hc hread
  obtain ⟨p, hp, hread⟩ := exists_of_firstOf hread
  exact h p hp hc hread

end Parser

namespace Grammar

theorem takes_operator (ops : List BinaryOp) :
    Takes (operator ops) fun op taken => taken = (spelling op).toList := by
  refine .firstOf fun p hp => ?_
  obtain ⟨op, -, rfl⟩ := List.mem_map.1 hp
  exact ((takes_literal _).returning op).imp fun op' taken h => h.1 ▸ h.2

theorem takes_wordOperator (op : BinaryOp) :
    Takes (wordOperator op) fun op taken => taken = (spelling op).toList :=
  ((takes_word _).returning op).imp fun _ _ h => h.1 ▸ h.2

theorem takes_qualifier : Takes qualifier fun q taken => taken = q.spelling.toList := by
  refine .firstOf fun p hp => ?_
  obtain ⟨q, -, rfl⟩ := List.mem_map.1 hp
  exact ((takes_word _).returning q).imp fun _ _ h => h.1 ▸ h.2

theorem takes_name : Takes name fun n taken => taken = n.toList := by
  intro c n c' hc h
  rw [name_eq c _ rfl] at h
  split at h
  · obtain ⟨rfl, rfl⟩ := Prod.mk.inj (Option.some.inj h)
    refine ⟨_, ?_, rfl⟩
    rw [← pastBlanks_rest, hc, String.toList_ofList]
    exact Cursor.passes_advance List.takeWhile_append_dropWhile.symm
  · cases h

theorem takes_digits : Takes Pairs.digits fun digits taken =>
    taken = digits ∧ digits ≠ [] ∧ ∀ a ∈ digits, a.isDigit := by
  intro c digits c' _ h
  obtain ⟨taken, c₁, htake, h⟩ := bind_eq_some_iff.1 h
  obtain ⟨hpasses, hdigits⟩ := passes_takeWhile htake
  split at h
  · cases h
  · rename_i hne
    obtain ⟨rfl, rfl⟩ := pure_eq_some_iff.1 h
    exact ⟨taken, hpasses, rfl, mt List.isEmpty_iff.2 hne, hdigits⟩

end Grammar

/-! ### What the characters of a token mean -/

/-- The spelling of every operator tells which one it is. -/
theorem operatorOf_spelling (op : BinaryOp) : operatorOf (spelling op) = .ok op := by cases op <;> rfl

theorem qualifierOf_spelling (q : Qualifier) : qualifierOf q.spelling = .ok q := by cases q <;> rfl

/-- Digits are a number, which may be too large for the number of an output. -/
theorem indexOf_digits {digits : List Char} (hne : digits ≠ []) (hdigits : ∀ a ∈ digits, a.isDigit) :
    indexOf (String.ofList digits) =
      if Decimal.natOfDigits digits < outputLimit then .ok (Decimal.natOfDigits digits)
      else .error .tooLarge := by
  have hnumber : (digits.isEmpty || !digits.all Char.isDigit) = false := by
    rw [List.all_eq_true.2 hdigits, Bool.not_true, Bool.or_false, List.isEmpty_eq_false_iff]
    exact hne
  rw [indexOf, String.toList_ofList, hnumber]
  rfl

end FlatDae.Source
