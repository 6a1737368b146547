/-
Module: FlatDae.Proofs.TokenPlaces
Purpose: Where the tokens of a text stand. The place of a token is the number of bytes in front of it, in
  UTF-8, so that characters of any length may stand in the blanks and comments between tokens. A cursor
  that has moved ahead has counted the bytes of what it has passed, comments that are never closed aside,
  which it has not passed. What a token reader takes is one token that stands there.
Main exports: Cursor.Passes, Cursor.Ahead, Token, Stand, Stand.append, Stand.increasing, StandsAt,
  Stand.standsAt
-/
import FlatDae.Proofs.NumberReading

namespace FlatDae.Source

/-! ### Cursors that move ahead -/

namespace Cursor

theorem byteLength_append (text more : List Char) :
    byteLength (text ++ more) = byteLength text + byteLength more := by
  induction text with
  | nil => simp [byteLength]
  | cons a text ih => rw [List.cons_append, byteLength, byteLength, ih, Nat.add_assoc]

/-- It is the number of bytes that a text takes in UTF-8. -/
theorem byteLength_eq (text : List Char) : byteLength text = (String.ofList text).utf8ByteSize := by
  induction text with
  | nil => rfl
  | cons a text ih =>
      rw [byteLength, ih, String.ofList_cons, String.utf8ByteSize_append, String.utf8ByteSize_singleton]

theorem byteLength_pos {text : List Char} (hne : text ≠ []) : 0 < byteLength text := by
  cases text with
  | nil => exact absurd rfl hne
  | cons a text => exact Nat.add_pos_left a.utf8Size_pos _

/-- The characters stand between the two places. -/
structure Passes (c : Cursor) (taken : List Char) (c' : Cursor) : Prop where
  rest : c.rest = taken ++ c'.rest
  offset : c'.offset = c.offset + byteLength taken

/-- Some characters stand between the two places. -/
def Ahead (c c' : Cursor) : Prop := ∃ taken, c.Passes taken c'

variable {c c' c'' : Cursor} {taken more rest : List Char}

theorem passes_nil (c : Cursor) : c.Passes [] c := ⟨rfl, rfl⟩

theorem passes_advance (h : c.rest = taken ++ rest) : c.Passes taken (c.advance taken rest) := ⟨h, rfl⟩

theorem Passes.append (h : c.Passes taken c') (h' : c'.Passes more c'') : c.Passes (taken ++ more) c'' where
  rest := by rw [h.rest, h'.rest, List.append_assoc]
  offset := by rw [h'.offset, h.offset, byteLength_append, Nat.add_assoc]

theorem Ahead.refl (c : Cursor) : c.Ahead c := ⟨[], passes_nil c⟩

theorem Ahead.trans (h : c.Ahead c') (h' : c'.Ahead c'') : c.Ahead c'' := by
  obtain ⟨taken, htaken⟩ := h
  obtain ⟨more, hmore⟩ := h'
  exact ⟨taken ++ more, htaken.append hmore⟩

theorem Passes.ahead (h : c.Passes taken c') : c.Ahead c' := ⟨taken, h⟩

/-- A cursor that has the same text behind it has not moved. -/
theorem Ahead.eq_of_rest (h : c.Ahead c') (hrest : c'.rest = c.rest) : c' = c := by
  obtain ⟨taken, htaken, hoffset⟩ := h
  obtain rfl : taken = [] := by simpa [hrest] using htaken
  cases c
  cases c'
  simp_all [byteLength]

theorem Ahead.offset_le (h : c.Ahead c') : c.offset ≤ c'.offset := by
  obtain ⟨taken, -, hoffset⟩ := h
  rw [hoffset]
  exact Nat.le_add_right _ _

/-- One more character is passed. -/
theorem Ahead.next {offset : Nat} {a : Char} {text : List Char} (h : c.Ahead ⟨offset, a :: text⟩) :
    c.Ahead ⟨offset + a.utf8Size, text⟩ :=
  h.trans ⟨[a], rfl, rfl⟩

end Cursor

open Cursor (Ahead Passes)

/-- A scan over blanks moves ahead. If it comes to the end in a comment it goes back, but not behind the
    opening. -/
theorem ahead_skipBlanksFrom {c : Cursor} (state : BlankState) (offset : Nat) (text : List Char)
    (h : c.Ahead ⟨offset, text⟩) (hopened : ∀ opened, state = .block opened → c.Ahead opened) :
    c.Ahead (skipBlanksFrom state offset text) := by
  fun_induction skipBlanksFrom state offset text with
  | case1 offset rest ih => exact ih h.next.next (by simp)
  | case2 offset rest ih =>
      refine ih h.next.next fun opened heq => ?_
      cases heq
      exact h
  | case3 offset a rest hline hblock hblank ih => exact ih h.next (by simp)
  | case4 offset a rest hline hblock hblank => exact h
  | case5 offset a rest hend ih => exact ih h.next (by simp)
  | case6 offset a rest hend ih => exact ih h.next (by simp)
  | case7 opened offset rest ih => exact ih h.next.next (by simp)
  | case8 opened offset a rest hend ih => exact ih h.next hopened
  | case9 opened offset => exact hopened opened rfl
  | case10 offset => exact h
  | case11 offset => exact h

namespace Parser

theorem ahead_pastBlanks (c : Cursor) : c.Ahead (pastBlanks c) :=
  ahead_skipBlanksFrom .between c.offset c.rest (.refl c) (by simp)

/-- Blanks are passed at once. -/
@[simp] theorem pastBlanks_pastBlanks (c : Cursor) : pastBlanks (pastBlanks c) = pastBlanks c := by
  apply (ahead_pastBlanks (pastBlanks c)).eq_of_rest
  rw [pastBlanks_rest, pastBlanks_rest, dropBlanks_dropBlanks]

end Parser

open FlatDae.Source.Parser (pastBlanks)

/-! ### Tokens -/

/-- A token with the offset where it starts. A parenthesis is grouping if it belongs to no call. -/
structure Token where
  start : Nat
  spelling : String
  grouping : Bool := false
deriving DecidableEq, Repr

/-- The tokens stand one after the other between the two places, with nothing but blanks and comments in
    front of each. -/
inductive Stand : List Token → Cursor → Cursor → Prop where
  | nil (c : Cursor) : Stand [] c c
  | blanks {tokens : List Token} {c c' : Cursor} (h : Stand tokens (pastBlanks c) c') : Stand tokens c c'
  | token {t : Token} {tokens : List Token} {c c' c'' : Cursor} (hstart : t.start = c.offset)
      (hne : t.spelling.toList ≠ []) (htoken : c.Passes t.spelling.toList c')
      (hrest : Stand tokens c' c'') : Stand (t :: tokens) c c''

namespace Stand

variable {tokens more : List Token} {c c' c'' : Cursor}

theorem append (h : Stand tokens c c') (h' : Stand more c' c'') : Stand (tokens ++ more) c c'' := by
  induction h with
  | nil c => exact h'
  | blanks _ ih => exact .blanks (ih h')
  | token hstart hne htoken _ ih => exact .token hstart hne htoken (ih h')

/-- Where some of the tokens end, the others begin. -/
theorem of_append (h : Stand (tokens ++ more) c c'') : ∃ c', Stand tokens c c' ∧ Stand more c' c'' := by
  generalize hall : tokens ++ more = all at h
  induction h generalizing tokens with
  | nil c =>
      obtain ⟨rfl, rfl⟩ := List.append_eq_nil_iff.1 hall
      exact ⟨c, .nil c, .nil c⟩
  | blanks _ ih =>
      obtain ⟨c', htokens, hmore⟩ := ih hall
      exact ⟨c', .blanks htokens, hmore⟩
  | @token t all c c₁ c'' hstart hne htoken hrest ih =>
      cases tokens with
      | nil =>
          obtain rfl : more = t :: all := hall
          exact ⟨c, .nil c, .token hstart hne htoken hrest⟩
      | cons t' tokens =>
          obtain ⟨rfl, htail⟩ := List.cons.inj hall
          obtain ⟨c', htokens, hmore⟩ := ih htail
          exact ⟨c', .token hstart hne htoken htokens, hmore⟩

theorem ahead (h : Stand tokens c c') : c.Ahead c' := by
  induction h with
  | nil c => exact .refl c
  | blanks _ ih => exact (Parser.ahead_pastBlanks _).trans ih
  | token _ _ htoken _ ih => exact htoken.ahead.trans ih

/-- Tokens in the middle stand somewhere between. -/
theorem exists_of_isInfix {own : List Token} (h : Stand tokens c c') (hown : own <:+: tokens) :
    ∃ c₁ c₂, c.Ahead c₁ ∧ Stand own c₁ c₂ := by
  obtain ⟨before, after, rfl⟩ := hown
  rw [List.append_assoc] at h
  obtain ⟨c₁, hbefore, hrest⟩ := h.of_append
  obtain ⟨c₂, hmiddle, -⟩ := hrest.of_append
  exact ⟨c₁, c₂, hbefore.ahead, hmiddle⟩

/-- No token stands in front of the place where they begin. -/
theorem offset_le (h : Stand tokens c c') : ∀ t ∈ tokens, c.offset ≤ t.start := by
  induction h with
  | nil c => simp
  | blanks _ ih => exact fun t ht => (Parser.ahead_pastBlanks _).offset_le.trans (ih t ht)
  | token hstart _ htoken _ ih =>
      intro t ht
      rcases List.mem_cons.1 ht with rfl | hmem
      · exact Nat.le_of_eq hstart.symm
      · exact htoken.ahead.offset_le.trans (ih t hmem)

/-- From left to right each token starts behind the one before. -/
theorem increasing (h : Stand tokens c c') : tokens.Pairwise (·.start < ·.start) := by
  induction h with
  | nil c => exact .nil
  | blanks _ ih => exact ih
  | token hstart hne htoken hrest ih =>
      refine .cons (fun t ht => ?_) ih
      have hpositive := Cursor.byteLength_pos hne
      have hbehind := hrest.offset_le t ht
      rw [htoken.offset] at hbehind
      omega

/-- One token, with blanks in front of it or not. -/
theorem single {t : Token} (hstart : t.start = (pastBlanks c).offset) (hne : t.spelling.toList ≠ [])
    (htoken : (pastBlanks c).Passes t.spelling.toList c') : Stand [t] c c' :=
  .blanks (.token hstart hne htoken (.nil c'))

/-- Blanks that were passed already make no difference. -/
theorem past {spelling : String} {grouping : Bool}
    (h : Stand ({ start := (pastBlanks (pastBlanks c)).offset, spelling, grouping } :: tokens)
      (pastBlanks c) c') : Stand ({ start := (pastBlanks c).offset, spelling, grouping } :: tokens) c c' := by
  rw [Parser.pastBlanks_pastBlanks] at h
  exact .blanks h

end Stand

/-- The text has the spelling behind so many bytes. -/
def StandsAt (s : String) (offset : Nat) (spelling : String) : Prop :=
  ∃ before after, s = before ++ spelling ++ after ∧ before.utf8ByteSize = offset

/-- Tokens that stand behind a place of the text stand in the text, at their offsets. -/
theorem Stand.standsAt {s : String} {tokens : List Token} {c c' : Cursor} (h : Stand tokens c c')
    (hc : (Cursor.ofString s).Ahead c) : ∀ t ∈ tokens, StandsAt s t.start t.spelling := by
  induction h with
  | nil c => simp
  | blanks _ ih => exact ih (hc.trans (Parser.ahead_pastBlanks _))
  | @token t tokens c c' c'' hstart hne htoken hrest ih =>
      intro t' ht
      rcases List.mem_cons.1 ht with rfl | hmem
      · obtain ⟨taken, htaken, hoffset⟩ := hc
        refine ⟨String.ofList taken, String.ofList c'.rest, ?_, ?_⟩
        · have htext : s.toList = taken ++ (t'.spelling.toList ++ c'.rest) := htoken.rest ▸ htaken
          rw [← String.toList_inj]
          simpa using htext
        · rw [← Cursor.byteLength_eq, hstart, hoffset]
          exact (Nat.zero_add _).symm
      · exact ih (hc.trans htoken.ahead) t' hmem

/-! ### What token readers take -/

namespace Parser

variable {α : Type} {p q : Parser α} {c c' : Cursor}

/-- What is noted as the place is where the blanks end, and reading goes on from there. -/
theorem of_start {f : Nat → Parser α} {r : α × Cursor} (h : (start >>= f) c = some r) :
    f (pastBlanks c).offset (pastBlanks c) = some r := by
  obtain ⟨offset, c₁, hstart, hread⟩ := bind_eq_some_iff.1 h
  obtain ⟨rfl, rfl⟩ := Prod.mk.inj (Option.some.inj hstart)
  exact hread

/-- One of two alternatives reads. -/
theorem or_of_orElse {r : α × Cursor} (h : (p <|> q) c = some r) : p c = some r ∨ q c = some r := by
  cases hp : p c with
  | none => exact Or.inr ((orElse_eq_of_none hp).symm.trans h)
  | some r' => exact Or.inl ((orElse_eq hp).symm.trans h)

/-- What may be missing is read, or nothing is. -/
theorem of_optional {found : Option α} (h : optional p c = some (found, c')) :
    (∃ a, found = some a ∧ p c = some (a, c')) ∨ found = none ∧ c' = c := by
  rcases or_of_orElse h with h | h
  · obtain ⟨r, hr, heq⟩ := Option.bind_eq_some_iff.1 h
    obtain ⟨rfl, rfl⟩ := Prod.mk.inj (Option.some.inj heq)
    exact Or.inl ⟨r.1, rfl, hr⟩
  · obtain ⟨rfl, rfl⟩ := pure_eq_some_iff.1 h
    exact Or.inr ⟨rfl, rfl⟩

/-- What a parser is to be read as makes no difference to what it takes. -/
theorem of_returning {p : Parser Unit} {a b : α} (h : (do p; return a : Parser α) c = some (b, c')) :
    b = a ∧ p c = some ((), c') := by
  obtain ⟨_, c₁, hread, hpure⟩ := bind_eq_some_iff.1 h
  obtain ⟨rfl, rfl⟩ := pure_eq_some_iff.1 hpure
  exact ⟨rfl, hread⟩

theorem passes_takeWhile {p : Char → Bool} {taken : List Char} (h : takeWhile p c = some (taken, c')) :
    c.Passes taken c' ∧ ∀ a ∈ taken, p a := by
  obtain ⟨rfl, rfl⟩ := Prod.mk.inj (Option.some.inj h)
  exact ⟨Cursor.passes_advance List.takeWhile_append_dropWhile.symm, fun a => List.mem_takeWhile_imp⟩

theorem passes_exactly {t : String} (h : exactly t c = some ((), c')) : c.Passes t.toList c' := by
  rw [exactly_eq, Option.map_eq_some_iff] at h
  obtain ⟨rest, hrest, heq⟩ := h
  obtain ⟨-, rfl⟩ := Prod.mk.inj heq
  exact Cursor.passes_advance (List.isPrefixOf?_eq_some_iff_append_eq.1 hrest).symm

theorem stand_literal {t : String} (hne : t.toList ≠ []) (h : literal t c = some ((), c'))
    (grouping : Bool) : Stand [{ start := (pastBlanks c).offset, spelling := t, grouping }] c c' :=
  .single rfl hne (passes_exactly h)

theorem stand_word {t : String} (hne : t.toList ≠ []) (h : word t c = some ((), c')) :
    Stand [{ start := (pastBlanks c).offset, spelling := t }] c c' := by
  obtain ⟨_, c₁, hliteral, hend⟩ := bind_eq_some_iff.1 h
  rw [atNameEnd_eq] at hend
  split at hend
  · obtain ⟨-, rfl⟩ := Prod.mk.inj (Option.some.inj hend)
    exact stand_literal hne hliteral false
  · cases hend

theorem stand_name {n : String} (h : Grammar.name c = some (n, c')) :
    Stand [{ start := (pastBlanks c).offset, spelling := n }] c c' := by
  rw [name_eq c _ rfl] at h
  split at h
  · rename_i hname
    obtain ⟨rfl, rfl⟩ := Prod.mk.inj (Option.some.inj h)
    refine .single rfl hname.ne_nil (Cursor.passes_advance ?_)
    rw [pastBlanks_rest, String.toList_ofList, List.takeWhile_append_dropWhile]
  · cases h

end Parser

/-! ### Numerals -/

/-- What stands in front of the exponent of a numeral: digits, or a point with digits around it. -/
inductive IsNumeralHead : List Char → Prop where
  | whole {digits : List Char} (hdigits : ∀ a ∈ digits, a.isDigit) (hne : digits ≠ []) :
      IsNumeralHead digits
  | point {digits fraction : List Char} (hdigits : ∀ a ∈ digits, a.isDigit)
      (hfraction : ∀ a ∈ fraction, a.isDigit) : IsNumeralHead (digits ++ '.' :: fraction)

namespace IsNumeralHead

variable {head : List Char} (h : IsNumeralHead head)
include h

theorem ne_nil : head ≠ [] := by
  cases h with
  | whole hdigits hne => exact hne
  | point => simp

/-- A numeral begins with a digit or a point, not with a sign. -/
theorem takeSign_eq (rest : List Char) : Decimal.takeSign (head ++ rest) = (false, head ++ rest) := by
  have hfirst : ∃ a as, head = a :: as ∧ a ≠ '-' ∧ a ≠ '+' := by
    have hdigit (a : Char) (ha : a.isDigit = true) : a ≠ '-' ∧ a ≠ '+' := by
      constructor <;> rintro rfl <;> cases ha
    cases h with
    | whole hdigits hne =>
        obtain ⟨a, as, rfl⟩ := List.exists_cons_of_ne_nil hne
        exact ⟨a, as, rfl, hdigit a (hdigits a List.mem_cons_self)⟩
    | @point digits fraction hdigits hfraction =>
        cases digits with
        | nil => exact ⟨'.', fraction, rfl, by decide⟩
        | cons a as => exact ⟨a, _, rfl, hdigit a (hdigits a List.mem_cons_self)⟩
  obtain ⟨a, as, rfl, hminus, hplus⟩ := hfirst
  unfold Decimal.takeSign
  split
  · rename_i heq
    exact absurd (List.cons.inj heq).1 hminus
  · rename_i heq
    exact absurd (List.cons.inj heq).1 hplus
  · rfl

theorem readUnsigned?_capital (negative : Bool) (exponent : List Char) :
    Decimal.readUnsigned? negative (head ++ 'E' :: exponent) =
      Decimal.readUnsigned? negative (head ++ 'e' :: exponent) := by
  have hsmall : Stops Char.isDigit ('e' :: exponent) := stops_cons.2 rfl
  have hcapital : Stops Char.isDigit ('E' :: exponent) := stops_cons.2 rfl
  unfold Decimal.readUnsigned?
  cases h with
  | whole hdigits hne =>
      simp only [takeWhile_run hdigits hsmall, takeWhile_run hdigits hcapital,
        dropWhile_run hdigits hsmall, dropWhile_run hdigits hcapital]
      rfl
  | @point digits fraction hdigits hfraction =>
      have hpoint (rest : List Char) : Stops Char.isDigit ('.' :: rest) := stops_cons.2 rfl
      simp only [List.append_assoc, List.cons_append, takeWhile_run hdigits (hpoint _),
        dropWhile_run hdigits (hpoint _), takeWhile_run hfraction hsmall,
        takeWhile_run hfraction hcapital, dropWhile_run hfraction hsmall,
        dropWhile_run hfraction hcapital]
      rfl

/-- The letter of an exponent may be a capital. -/
theorem read?_capital (exponent : List Char) :
    Decimal.read? (String.ofList (head ++ 'E' :: exponent)) =
      Decimal.read? (String.ofList (head ++ 'e' :: exponent)) := by
  have hlower : (String.ofList (head ++ 'E' :: exponent)).toLower =
      (String.ofList (head ++ 'e' :: exponent)).toLower := by
    change String.map _ _ = String.map _ _
    rw [← String.toList_inj]
    simp only [String.toList_map, String.toList_ofList, List.map_append, List.map_cons]
    rfl
  unfold Decimal.read?
  simp only [String.toList_ofList, h.takeSign_eq, hlower, h.readUnsigned?_capital]

end IsNumeralHead

namespace Grammar

open FlatDae.Source.Parser

variable {c c' : Cursor}

theorem passes_mantissa {digits : List Char} (h : mantissa c = some (digits, c')) :
    c.Passes digits c' ∧ IsNumeralHead digits := by
  obtain ⟨whole, c₁, hwhole, h⟩ := bind_eq_some_iff.1 h
  obtain ⟨hpasses, hdigits⟩ := passes_takeWhile hwhole
  split at h
  · rename_i hempty
    obtain rfl := List.isEmpty_iff.1 hempty
    obtain ⟨_, c₂, hpoint, h⟩ := bind_eq_some_iff.1 h
    obtain ⟨fraction, c₃, htake, h⟩ := bind_eq_some_iff.1 h
    obtain ⟨hfraction, hdigits'⟩ := passes_takeWhile htake
    split at h
    · cases h
    · obtain ⟨rfl, rfl⟩ := pure_eq_some_iff.1 h
      exact ⟨(hpasses.append (passes_exactly hpoint)).append hfraction, .point hdigits hdigits'⟩
  · rename_i hne
    rw [List.isEmpty_iff] at hne
    rcases or_of_orElse h with h | h
    · obtain ⟨_, c₂, hpoint, h⟩ := bind_eq_some_iff.1 h
      obtain ⟨fraction, c₃, htake, h⟩ := bind_eq_some_iff.1 h
      obtain ⟨hfraction, hdigits'⟩ := passes_takeWhile htake
      obtain ⟨rfl, rfl⟩ := pure_eq_some_iff.1 h
      refine ⟨?_, .point hdigits hdigits'⟩
      simpa using (hpasses.append (passes_exactly hpoint)).append hfraction
    · obtain ⟨rfl, rfl⟩ := pure_eq_some_iff.1 h
      exact ⟨hpasses, .whole hdigits hne⟩

/-- The exponent is read with a small letter. -/
theorem passes_exponent {power : List Char} (h : exponent c = some (power, c')) :
    ∃ letter digits, (letter = 'e' ∨ letter = 'E') ∧ power = 'e' :: digits ∧
      c.Passes (letter :: digits) c' := by
  obtain ⟨_, c₁, hletter, h⟩ := bind_eq_some_iff.1 h
  obtain ⟨sign, c₂, hsign, h⟩ := bind_eq_some_iff.1 h
  obtain ⟨digits, c₃, htake, h⟩ := bind_eq_some_iff.1 h
  obtain ⟨hdigits, -⟩ := passes_takeWhile htake
  have hpassesSign : c₁.Passes sign c₂ := by
    obtain ⟨p, hp, hread⟩ := exists_of_firstOf hsign
    simp only [List.mem_cons, List.not_mem_nil, or_false] at hp
    rcases hp with rfl | rfl | rfl
    · obtain ⟨rfl, hplus⟩ := of_returning hread
      exact passes_exactly hplus
    · obtain ⟨rfl, hminus⟩ := of_returning hread
      exact passes_exactly hminus
    · obtain ⟨rfl, rfl⟩ := pure_eq_some_iff.1 hread
      exact Cursor.passes_nil _
  split at h
  · cases h
  · obtain ⟨rfl, rfl⟩ := pure_eq_some_iff.1 h
    rcases or_of_orElse hletter with hletter | hletter
    · exact ⟨'e', sign ++ digits, Or.inl rfl, rfl,
        (passes_exactly hletter).append (hpassesSign.append hdigits)⟩
    · exact ⟨'E', sign ++ digits, Or.inr rfl, rfl,
        (passes_exactly hletter).append (hpassesSign.append hdigits)⟩

/-- A number is one token, which is read as its value. -/
theorem stand_number {e : Expression} (h : number c = some (e, c')) : ∃ spelling value,
    Decimal.read? spelling = some value ∧ e = .number (pastBlanks c).offset value ∧
      Stand [{ start := (pastBlanks c).offset, spelling }] c c' := by
  replace h := of_start h
  obtain ⟨digits, c₂, hmantissa, h⟩ := bind_eq_some_iff.1 h
  obtain ⟨power, c₃, hpower, h⟩ := bind_eq_some_iff.1 h
  obtain ⟨hpasses, hhead⟩ := passes_mantissa hmantissa
  cases hread : Decimal.read? (String.ofList (digits ++ power)) with
  | none =>
      rw [hread] at h
      cases h
  | some value =>
      rw [hread] at h
      obtain ⟨rfl, rfl⟩ := pure_eq_some_iff.1 h
      -- the token is what was passed, which the exponent is read from with a small letter
      have hspelled : ∃ taken, Decimal.read? (String.ofList (digits ++ taken)) = some value ∧
          c₂.Passes taken c₃ := by
        rcases or_of_orElse hpower with hpower | hpower
        · obtain ⟨letter, exponent, rfl | rfl, rfl, htaken⟩ := passes_exponent hpower
          · exact ⟨_, hread, htaken⟩
          · exact ⟨_, (hhead.read?_capital exponent).trans hread, htaken⟩
        · obtain ⟨rfl, rfl⟩ := pure_eq_some_iff.1 hpower
          exact ⟨[], hread, Cursor.passes_nil _⟩
      obtain ⟨taken, hvalue, htaken⟩ := hspelled
      refine ⟨String.ofList (digits ++ taken), value, hvalue, rfl, .single rfl ?_ ?_⟩
      · simp [hhead.ne_nil]
      · rw [String.toList_ofList]
        exact hpasses.append htaken

end Grammar

end FlatDae.Source
