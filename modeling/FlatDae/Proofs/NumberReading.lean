/-
Module: FlatDae.Proofs.NumberReading
Purpose: The digits of a number and how they are read. A natural number is read back from its digits. A
  finite double without a sign is written as digits with at most one point between them, and such a text
  is taken as a whole for a number if nothing follows that a number goes on with; the double that is read
  is the one that the text stands for.
Main exports: Decimal.natOfDigits_toString, IsMantissa, Decimal.text_isMantissa, Parser.reads_number,
  Parser.reads_outputIndex
-/
import FlatDae.Decimal.Shortest
import FlatDae.Proofs.TokenReading

namespace FlatDae

/-! ### Digits -/

/-- The digits of a natural number. -/
theorem toList_toString (n : Nat) : (toString n).toList = Nat.toDigits 10 n := String.toList_ofList

theorem isDigit_of_mem_toString {n : Nat} {c : Char} (hc : c ∈ (toString n).toList) : c.isDigit := by
  rw [toList_toString] at hc
  exact Nat.isDigit_of_mem_toDigits (by decide) (by decide) hc

theorem toString_ne_nil (n : Nat) : (toString n).toList ≠ [] := by
  rw [toList_toString]
  exact Nat.toDigits_ne_nil

/-- A natural number is what its digits stand for. -/
theorem Decimal.natOfDigits_toString (n : Nat) : Decimal.natOfDigits (toString n).toList = n := by
  rw [toList_toString]
  exact Nat.ofDigitChars_toDigits (by decide) (by decide)

namespace Source

/-- Digits with at most one point between them. -/
inductive IsMantissa : List Char → Prop where
  | whole {digits : List Char} (hdigits : ∀ c ∈ digits, c.isDigit) (hne : digits ≠ []) : IsMantissa digits
  | point {digits fraction : List Char} (hdigits : ∀ c ∈ digits, c.isDigit) (hne : digits ≠ [])
      (hfraction : ∀ c ∈ fraction, c.isDigit) : IsMantissa (digits ++ '.' :: fraction)

/-- A mantissa begins with a digit. -/
theorem IsMantissa.exists_cons {m : List Char} (hm : IsMantissa m) : ∃ c cs, m = c :: cs ∧ c.isDigit := by
  cases hm with
  | whole hdigits hne =>
      rcases List.exists_cons_of_ne_nil hne with ⟨c, cs, rfl⟩
      exact ⟨c, cs, rfl, hdigits c List.mem_cons_self⟩
  | point hdigits hne hfraction =>
      rcases List.exists_cons_of_ne_nil hne with ⟨c, cs, rfl⟩
      exact ⟨c, _, List.cons_append, hdigits c List.mem_cons_self⟩

end Source

open Source (IsMantissa)

namespace Decimal

theorem isDigit_of_mem_replicate {n : Nat} {c : Char} (hc : c ∈ List.replicate n '0') : c.isDigit := by
  rw [List.eq_of_mem_replicate hc]
  rfl

/-- A whole number is written as its digits and the zeros that its exponent asks for. -/
theorem positional_whole {d : Decimal} (h : 0 ≤ d.exponent) :
    d.positional.toList = (toString d.digits).toList ++ List.replicate d.exponent.toNat '0' := by
  rw [positional, if_pos h, String.toList_append, String.toList_ofList]

/-- A fraction is written as its digits with a point in front of as many of them as its exponent says, and
    zeros at the front so that one is left before the point. -/
theorem positional_point {d : Decimal} (h : d.exponent < 0) :
    ∃ n whole fraction, d.positional.toList = whole ++ '.' :: fraction ∧ whole ≠ [] ∧
      fraction.length = (-d.exponent).toNat ∧
      whole ++ fraction = List.replicate n '0' ++ (toString d.digits).toList := by
  rw [positional, if_neg (Int.not_le.2 h)]
  simp only [String.toList_ofList]
  generalize (-d.exponent).toNat = places
  generalize hpadded : List.replicate (places + 1 - (toString d.digits).length) '0'
    ++ (toString d.digits).toList = padded
  have hlength : places < padded.length := by
    rw [← hpadded, List.length_append, List.length_replicate, String.length_toList]
    omega
  refine ⟨_, padded.take (padded.length - places), padded.drop (padded.length - places), rfl, fun hnil => ?_,
    ?_, (List.take_append_drop _ _).trans hpadded.symm⟩
  · have hnone := congrArg List.length hnil
    rw [List.length_take, List.length_nil] at hnone
    omega
  · rw [List.length_drop]
    omega

/-- A decimal is written in digits, with zeros where they are needed around the point. -/
theorem positional_isMantissa (d : Decimal) : IsMantissa d.positional.toList := by
  rcases Int.lt_or_le d.exponent 0 with h | h
  · rcases positional_point h with ⟨n, whole, fraction, htext, hwhole, -, hdigits⟩
    have hall : ∀ c ∈ whole ++ fraction, c.isDigit := by
      intro c hc
      rw [hdigits] at hc
      exact (List.mem_append.1 hc).elim isDigit_of_mem_replicate isDigit_of_mem_toString
    rw [htext]
    exact .point (fun c hc => hall c (List.mem_append_left _ hc)) hwhole
      (fun c hc => hall c (List.mem_append_right _ hc))
  · rw [positional_whole h]
    refine .whole (fun c hc => ?_) (fun hnil => toString_ne_nil d.digits (List.append_eq_nil_iff.1 hnil).1)
    exact (List.mem_append.1 hc).elim isDigit_of_mem_toString isDigit_of_mem_replicate

/-- A finite double without a sign is written in digits. -/
theorem text_isMantissa {v : Float} {significand : Nat} {exponent : Int}
    (hv : Binary64.ofFloat v = .finite false significand exponent) : IsMantissa (text v).toList := by
  unfold text
  rw [hv]
  simp only [Bool.false_eq_true, if_false]
  split
  · exact .whole (List.all_eq_true.1 rfl) (List.cons_ne_nil _ _)
  · exact positional_isMantissa _

end Decimal

namespace Source

/-- Characters with which a name or a number may go on. -/
def isAtomChar (c : Char) : Bool := isNameChar c || c == '.'

theorem isAtomChar_of_isNameChar {c : Char} (h : isNameChar c) : isAtomChar c := by
  rw [isAtomChar, h, Bool.true_or]

theorem isNameChar_of_isDigit {c : Char} (h : c.isDigit) : isNameChar c := by
  rw [isNameChar, Char.isAlphanum, h, Bool.or_true, Bool.or_true]

theorem IsMantissa.atomChars {m : List Char} (hm : IsMantissa m) : ∀ c ∈ m, isAtomChar c := by
  have hdigit {c : Char} (hc : c.isDigit) : isAtomChar c := isAtomChar_of_isNameChar (isNameChar_of_isDigit hc)
  intro c hc
  cases hm with
  | whole hdigits => exact hdigit (hdigits c hc)
  | point hdigits _ hfraction =>
      rcases List.mem_append.1 hc with hc | hc
      · exact hdigit (hdigits c hc)
      · rcases List.mem_cons.1 hc with rfl | hc
        · rfl
        · exact hdigit (hfraction c hc)

theorem dropBlanks_atomChar {c : Char} (hc : isAtomChar c) (text : List Char) :
    dropBlanks (c :: text) = c :: text := by
  rw [isAtomChar, Bool.or_eq_true, beq_iff_eq] at hc
  rcases hc with hc | rfl
  · exact dropBlanks_nameChar hc text
  · rfl

/-- What no name and no number goes on with behind the blanks, none goes on with in front of them. -/
theorem Stops.of_dropBlanks {p : Char → Bool} {text : List Char} (h : Stops p (dropBlanks text))
    (hp : ∀ c, p c → isAtomChar c) : Stops p text := by
  cases text with
  | nil => exact stops_nil p
  | cons c cs =>
      refine stops_cons.2 (Bool.eq_false_iff.2 fun hc => ?_)
      rw [dropBlanks_atomChar (hp c hc), stops_cons, hc] at h
      cases h

namespace Parser

variable {rest : List Char}

theorem takeWhile_eq {p : Char → Bool} {run : List Char} {c : Cursor} (hc : c.rest = run ++ rest)
    (hrun : ∀ a ∈ run, p a) (hrest : Stops p rest) :
    takeWhile p c = some (run, c.advance run rest) := by
  change some (c.rest.takeWhile p, c.advance (c.rest.takeWhile p) (c.rest.dropWhile p)) = _
  rw [hc, takeWhile_run hrun hrest, dropWhile_run hrun hrest]

/-- All the digits are taken, and the point if there is one. -/
theorem mantissa_eq {m : List Char} (hm : IsMantissa m) (hrest : Stops isAtomChar rest) {c : Cursor}
    (hc : c.rest = m ++ rest) : ∃ c', Grammar.mantissa c = some (m, c') ∧ c'.rest = rest := by
  have hstops : Stops Char.isDigit rest :=
    hrest.imp fun a ha => isAtomChar_of_isNameChar (isNameChar_of_isDigit ha)
  cases hm with
  | whole hdigits hne =>
      refine ⟨c.advance m rest, (bind_eq (takeWhile_eq hc hdigits hstops)).trans ?_, rfl⟩
      rw [if_neg (by rwa [List.isEmpty_iff])]
      have hpoint : exactly "." (c.advance m rest) = none := exactly_eq_none (hrest.not_leading rfl)
      exact orElse_eq_of_none (bind_eq_none hpoint)
  | @point digits fraction hdigits hne hfraction =>
      rw [List.append_assoc, List.cons_append] at hc
      have hwhole := takeWhile_eq hc hdigits (stops_cons.2 rfl)
      generalize hc₁ : c.advance digits ('.' :: (fraction ++ rest)) = c₁ at hwhole
      have hpoint : exactly "." c₁ = some ((), c₁.advance ".".toList (fraction ++ rest)) :=
        exactly_eq_some (by rw [← hc₁]; rfl)
      generalize hc₂ : c₁.advance ".".toList (fraction ++ rest) = c₂ at hpoint
      have hfurther : takeWhile Char.isDigit c₂ = some (fraction, c₂.advance fraction rest) :=
        takeWhile_eq (by rw [← hc₂]; rfl) hfraction hstops
      refine ⟨c₂.advance fraction rest, (bind_eq hwhole).trans ?_, rfl⟩
      rw [if_neg (by rwa [List.isEmpty_iff])]
      exact orElse_eq ((bind_eq hpoint).trans (bind_eq hfurther))

/-- No exponent follows. -/
theorem exponent_eq {c : Cursor} (hrest : Stops isAtomChar c.rest) : Grammar.exponent c = none := by
  refine bind_eq_none ((orElse_eq_of_none ?_).trans ?_)
  · exact exactly_eq_none (hrest.not_leading rfl)
  · exact exactly_eq_none (hrest.not_leading rfl)

/-- A number is read as the double that its digits stand for. -/
theorem reads_number {v value : Float} {significand : Nat} {exponent : Int}
    (hv : Binary64.ofFloat v = .finite false significand exponent)
    (hread : Decimal.read? (Decimal.text v) = some value) (hrest : Stops isAtomChar rest) :
    Reads Grammar.number ((Decimal.text v).toList ++ rest) (fun e => ∃ offset, e = .number offset value)
      rest := by
  intro c hc
  have hm := Decimal.text_isMantissa hv
  rcases hm.exists_cons with ⟨d, ds, hds, hdigit⟩
  have hsolid : dropBlanks ((Decimal.text v).toList ++ rest) = (Decimal.text v).toList ++ rest := by
    rw [hds]
    exact dropBlanks_nameChar (isNameChar_of_isDigit hdigit) _
  rw [hsolid, ← pastBlanks_rest] at hc
  rcases mantissa_eq hm hrest hc with ⟨c', hmantissa, hc'⟩
  have hexponent : (Grammar.exponent <|> pure []) c' = some ([], c') :=
    orElse_eq_of_none (exponent_eq (hc'.symm ▸ hrest))
  refine ⟨.number (pastBlanks c).offset value, c', ?_, ⟨_, rfl⟩, by rw [hc']⟩
  have hstart : start c = some ((pastBlanks c).offset, pastBlanks c) := rfl
  rw [Grammar.number, bind_eq hstart, bind_eq hmantissa, bind_eq hexponent, List.append_nil,
    String.ofList_toList, hread]
  rfl

/-- A number is read only where a digit or a point stands. -/
theorem refuses_number {text : List Char} (h : Stops (fun c => c.isDigit || c == '.') (dropBlanks text)) :
    Refuses Grammar.number text := by
  intro c hc
  rw [← hc, ← pastBlanks_rest] at h
  have hstart : start c = some ((pastBlanks c).offset, pastBlanks c) := rfl
  have htake : takeWhile Char.isDigit (pastBlanks c) = some ([], (pastBlanks c).advance [] _) :=
    takeWhile_eq rfl (fun _ ha => nomatch ha) (h.imp fun a ha => by rw [ha, Bool.true_or])
  have hpoint : exactly "." ((pastBlanks c).advance [] (pastBlanks c).rest) = none :=
    exactly_eq_none (h.not_leading rfl)
  exact (bind_eq hstart).trans (bind_eq_none ((bind_eq htake).trans (bind_eq_none hpoint)))

/-- The number of an output is read back from its digits. -/
theorem reads_outputIndex (k : Nat) :
    Reads Grammar.outputIndex ('{' :: ((toString k).toList ++ '}' :: rest)) (· = k) rest := by
  have hopen : Reads (literal "\x7b") ('{' :: ((toString k).toList ++ '}' :: rest)) (fun _ => True)
      ((toString k).toList ++ '}' :: rest) := reads_literal rfl
  refine hopen.bind fun _ _ c hc => ?_
  have hsolid : dropBlanks ((toString k).toList ++ '}' :: rest) = (toString k).toList ++ '}' :: rest :=
    dropBlanks_word (fun _ ha => isNameChar_of_isDigit (isDigit_of_mem_toString ha)) (toString_ne_nil k) _
  rw [hsolid, ← pastBlanks_rest] at hc
  have htake : takeWhile Char.isDigit (pastBlanks c) = some (_, (pastBlanks c).advance _ ('}' :: rest)) :=
    takeWhile_eq hc (fun _ => isDigit_of_mem_toString) (stops_cons.2 rfl)
  have hclose : Reads (literal "\x7d") ('}' :: rest) (fun _ => True) rest := reads_literal rfl
  rcases hclose ((pastBlanks c).advance (toString k).toList ('}' :: rest)) rfl with ⟨_, c', hread, -, hc'⟩
  refine ⟨k, c', ?_, rfl, hc'⟩
  have hskip : skipBlanks c = some ((), pastBlanks c) := rfl
  rw [bind_eq hskip, bind_eq htake, if_neg (by rw [List.isEmpty_iff]; exact toString_ne_nil k)]
  refine (bind_eq hread).trans ?_
  rw [Decimal.natOfDigits_toString]
  rfl

end Parser

end Source

end FlatDae
