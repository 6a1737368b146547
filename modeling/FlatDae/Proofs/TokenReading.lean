/-
Module: FlatDae.Proofs.TokenReading
Purpose: How the tokens of a text are read. What a token reader does depends on the text behind the
  blanks and comments alone, which are dropped at once. So reading is described from text to text: a
  parser `Reads` a value off the front of a text and leaves the rest, or it `Refuses` the text, blanks
  aside on either end, and both are composed along the parser. A literal is read wherever it stands, a
  word and a name only as far as no character of a name follows.
Main exports: dropBlanks, Stops, IsName, Parser.Reads, Parser.Refuses, Parser.reads_literal,
  Parser.reads_word, Parser.reads_name
-/
import Mathlib.Data.List.Basic
import Mathlib.Data.List.TakeWhile
import FlatDae.Proofs.TextReading

namespace FlatDae.Source

/-! ### Blanks -/

/-- Two scans over blanks that differ in what they have counted only. -/
inductive BlankState.Alike : BlankState → BlankState → Prop where
  | between : Alike .between .between
  | line : Alike .line .line
  | block {opened opened' : Cursor} (h : opened.rest = opened'.rest) : Alike (.block opened) (.block opened')

/-- What a scan over blanks leaves does not depend on what was counted. -/
theorem skipBlanksFrom_alike {state state' : BlankState} (h : state.Alike state') (offset offset' : Nat)
    (text : List Char) :
    (skipBlanksFrom state offset text).rest = (skipBlanksFrom state' offset' text).rest := by
  fun_induction skipBlanksFrom state offset text generalizing state' offset' with
  | case1 offset rest ih =>
      cases h
      simp only [skipBlanksFrom]
      exact ih .line _
  | case2 offset rest ih =>
      cases h
      simp only [skipBlanksFrom]
      refine ih (.block ?_) _
      rfl
  | case3 offset c rest hline hblock hblank ih =>
      cases h
      rw [skipBlanksFrom.eq_3 _ _ _ hline hblock, if_pos hblank]
      exact ih .between _
  | case4 offset c rest hline hblock hblank =>
      cases h
      rw [skipBlanksFrom.eq_3 _ _ _ hline hblock, if_neg hblank]
  | case5 offset c rest hend ih =>
      cases h
      rw [skipBlanksFrom, if_pos hend]
      exact ih .between _
  | case6 offset c rest hend ih =>
      cases h
      rw [skipBlanksFrom, if_neg hend]
      exact ih .line _
  | case7 opened offset rest ih =>
      cases h
      rw [skipBlanksFrom]
      exact ih .between _
  | case8 opened offset c rest hend ih =>
      cases h with
      | block hopened =>
          rw [skipBlanksFrom.eq_6 _ _ _ _ hend]
          exact ih (.block hopened) _
  | case9 opened offset =>
      cases h with
      | block hopened => exact hopened
  | case10 offset => cases h; rfl
  | case11 offset => cases h; rfl

/-- What is left of a text behind the blanks and comments at its front. -/
def dropBlanks (text : List Char) : List Char := (skipBlanksFrom .between 0 text).rest

theorem skipBlanksFrom_rest (offset : Nat) (text : List Char) :
    (skipBlanksFrom .between offset text).rest = dropBlanks text :=
  skipBlanksFrom_alike .between offset 0 text

/-- A scan over blanks ends where no blank stands. For a scan that is in a comment this is so if the
    text behind the opening leads to the same end. -/
theorem dropBlanks_skipBlanksFrom (state : BlankState) (offset : Nat) (text : List Char)
    (hopened : ∀ opened, state = .block opened →
      dropBlanks opened.rest = (skipBlanksFrom state offset text).rest) :
    dropBlanks (skipBlanksFrom state offset text).rest = (skipBlanksFrom state offset text).rest := by
  fun_induction skipBlanksFrom state offset text with
  | case1 offset rest ih => exact ih (fun _ h => nomatch h)
  | case2 offset rest ih =>
      refine ih fun opened h => ?_
      cases h
      rw [← skipBlanksFrom_rest offset, skipBlanksFrom]
  | case3 offset c rest hline hblock hblank ih => exact ih (fun _ h => nomatch h)
  | case4 offset c rest hline hblock hblank =>
      rw [dropBlanks, skipBlanksFrom.eq_3 _ _ _ hline hblock, if_neg hblank]
  | case5 offset c rest hend ih => exact ih (fun _ h => nomatch h)
  | case6 offset c rest hend ih => exact ih (fun _ h => nomatch h)
  | case7 opened offset rest ih => exact ih (fun _ h => nomatch h)
  | case8 opened offset c rest hend ih => exact ih hopened
  | case9 opened offset => exact hopened opened rfl
  | case10 offset => rfl
  | case11 offset => rfl

/-- Blanks are dropped at once. -/
@[simp] theorem dropBlanks_dropBlanks (text : List Char) : dropBlanks (dropBlanks text) = dropBlanks text :=
  dropBlanks_skipBlanksFrom .between 0 text (fun _ h => nomatch h)

/-- Nothing is added when blanks are dropped. A comment that is never closed is given back as a whole. -/
theorem length_skipBlanksFrom_le (state : BlankState) (offset : Nat) (text : List Char) {n : Nat}
    (htext : text.length ≤ n) (hopened : ∀ opened, state = .block opened → opened.rest.length ≤ n) :
    (skipBlanksFrom state offset text).rest.length ≤ n := by
  fun_induction skipBlanksFrom state offset text with
  | case1 offset rest ih =>
      simp only [List.length_cons] at htext
      exact ih (by omega) (fun _ h => nomatch h)
  | case2 offset rest ih =>
      refine ih ?_ fun opened h => ?_
      · simp only [List.length_cons] at htext
        omega
      · cases h
        exact htext
  | case3 offset c rest hline hblock hblank ih => exact ih (Nat.le_of_succ_le htext) (fun _ h => nomatch h)
  | case4 offset c rest hline hblock hblank => exact htext
  | case5 offset c rest hend ih => exact ih (Nat.le_of_succ_le htext) (fun _ h => nomatch h)
  | case6 offset c rest hend ih => exact ih (Nat.le_of_succ_le htext) (fun _ h => nomatch h)
  | case7 opened offset rest ih =>
      simp only [List.length_cons] at htext
      exact ih (by omega) (fun _ h => nomatch h)
  | case8 opened offset c rest hend ih => exact ih (Nat.le_of_succ_le htext) hopened
  | case9 opened offset => exact hopened opened rfl
  | case10 offset => exact htext
  | case11 offset => exact htext

theorem length_dropBlanks_le (text : List Char) : (dropBlanks text).length ≤ text.length :=
  length_skipBlanksFrom_le .between 0 text (Nat.le_refl _) (fun _ h => nomatch h)

/-- A blank is dropped. -/
@[simp] theorem dropBlanks_blank {c : Char} (text : List Char) (hc : isBlank c) :
    dropBlanks (c :: text) = dropBlanks text := by
  have hslash : c ≠ '/' := by
    rintro rfl
    exact absurd hc (by decide)
  rw [dropBlanks, skipBlanksFrom.eq_3 _ _ _ (fun _ h => absurd h hslash) (fun _ h => absurd h hslash),
    if_pos hc, skipBlanksFrom_rest]

@[simp] theorem dropBlanks_space (text : List Char) : dropBlanks (' ' :: text) = dropBlanks text :=
  dropBlanks_blank text rfl

/-- Nothing is dropped in front of a character that is neither a blank nor can open a comment. -/
theorem dropBlanks_solid {c : Char} (text : List Char) (hblank : isBlank c = false) (hslash : c ≠ '/') :
    dropBlanks (c :: text) = c :: text := by
  rw [dropBlanks, skipBlanksFrom.eq_3 _ _ _ (fun _ h => absurd h hslash) (fun _ h => absurd h hslash),
    if_neg (by rw [hblank]; exact Bool.false_ne_true)]

/-! ### What a parser reads -/

/-- No character that satisfies `p` stands at the front. -/
def Stops (p : Char → Bool) (text : List Char) : Prop := ∀ c ∈ text.head?, p c = false

theorem stops_nil (p : Char → Bool) : Stops p [] := fun _ h => nomatch h

@[simp] theorem stops_cons {p : Char → Bool} {c : Char} {text : List Char} :
    Stops p (c :: text) ↔ p c = false := by
  simp [Stops]

instance (p : Char → Bool) : (text : List Char) → Decidable (Stops p text)
  | [] => isTrue (stops_nil p)
  | c :: _ => decidable_of_iff' (p c = false) stops_cons

theorem Stops.imp {p q : Char → Bool} {text : List Char} (h : Stops p text) (himp : ∀ c, q c → p c) :
    Stops q text :=
  fun c hc => Bool.eq_false_iff.2 fun hq => Bool.eq_false_iff.1 (h c hc) (himp c hq)

/-- What begins with a character that does not stand at the front does not stand there. -/
theorem Stops.not_leading {p : Char → Bool} {text t : List Char} (h : Stops p text) (ht : t.head?.any p) :
    ¬ t <+: text := by
  rintro ⟨rest, rfl⟩
  cases t with
  | nil => cases ht
  | cons c t => exact Bool.eq_false_iff.1 (stops_cons.1 h) ht

/-- A run of characters ends where the next one is no part of it. -/
theorem takeWhile_run {p : Char → Bool} {run rest : List Char} (hrun : ∀ c ∈ run, p c) (hrest : Stops p rest) :
    (run ++ rest).takeWhile p = run := by
  rw [List.takeWhile_append_of_pos hrun]
  cases rest with
  | nil => rw [List.takeWhile_nil, List.append_nil]
  | cons c rest =>
      have hstop : ¬ p c = true := by
        rw [stops_cons.1 hrest]
        exact Bool.false_ne_true
      rw [List.takeWhile_cons_of_neg hstop, List.append_nil]

theorem dropWhile_run {p : Char → Bool} {run rest : List Char} (hrun : ∀ c ∈ run, p c) (hrest : Stops p rest) :
    (run ++ rest).dropWhile p = rest := by
  rw [List.dropWhile_append_of_pos hrun]
  cases rest with
  | nil => rfl
  | cons c rest => rw [List.dropWhile_cons_of_neg (by rw [stops_cons.1 hrest]; exact Bool.false_ne_true)]

/-- What stands at the front of a run and what follows it stands within the run. -/
theorem prefix_run_iff {p : Char → Bool} {w run rest : List Char} (hw : ∀ c ∈ w, p c) (hrun : ∀ c ∈ run, p c)
    (hrest : Stops p rest) : w <+: run ++ rest ↔ w <+: run := by
  refine ⟨fun h => ?_, fun h => h.trans (List.prefix_append run rest)⟩
  rcases h with ⟨t, ht⟩
  have htake := congrArg (List.takeWhile p) ht
  rw [takeWhile_run hrun hrest, List.takeWhile_append_of_pos hw] at htake
  exact ⟨t.takeWhile p, htake⟩

/-- A text that is read as a name. -/
structure IsName (n : String) : Prop where
  chars : ∀ c ∈ n.toList, isNameChar c
  head : ∃ c ∈ n.toList.head?, c.isDigit = false
  noKeyword : n ∉ keywords

/-- The check of a name goes through its characters, not through all characters there are. -/
theorem isName_iff (n : String) :
    IsName n ↔ n.toList.all isNameChar ∧ n.toList.head?.any (fun c => !c.isDigit) ∧ n ∉ keywords := by
  rw [List.all_eq_true, Option.any_eq_true]
  simp only [Bool.not_eq_true']
  exact ⟨fun h => ⟨h.chars, h.head, h.noKeyword⟩, fun h => ⟨h.1, h.2.1, h.2.2⟩⟩

instance (n : String) : Decidable (IsName n) := decidable_of_iff' _ (isName_iff n)

theorem solid_of_isNameChar {c : Char} (hc : isNameChar c) : isBlank c = false ∧ c ≠ '/' := by
  refine ⟨Bool.eq_false_iff.2 fun hblank => ?_, fun hslash => ?_⟩
  · simp only [isBlank, Bool.or_eq_true, beq_iff_eq] at hblank
    rcases hblank with ((rfl | rfl) | rfl) | rfl <;> exact absurd hc (by decide)
  · rw [hslash] at hc
    exact absurd hc (by decide)

theorem dropBlanks_nameChar {c : Char} (hc : isNameChar c) (text : List Char) :
    dropBlanks (c :: text) = c :: text :=
  dropBlanks_solid text (solid_of_isNameChar hc).1 (solid_of_isNameChar hc).2

/-- A name begins with a character of a name that is no digit. -/
theorem IsName.exists_cons {n : String} (hn : IsName n) :
    ∃ c cs, n.toList = c :: cs ∧ isNameChar c ∧ c.isDigit = false := by
  rcases hn.head with ⟨c, hc, hdigit⟩
  rcases List.head?_eq_some_iff.1 hc with ⟨cs, hcs⟩
  exact ⟨c, cs, hcs, hn.chars c (hcs ▸ List.mem_cons_self), hdigit⟩

theorem IsName.ne_nil {n : String} (hn : IsName n) : n.toList ≠ [] := by
  rcases hn.exists_cons with ⟨c, cs, hcs, -⟩
  rw [hcs]
  exact List.cons_ne_nil c cs

theorem isNameChar_of_keyword {w : String} (hw : w ∈ keywords) : ∀ c ∈ w.toList, isNameChar c := by
  have hall : ∀ w ∈ keywords, w.toList.all isNameChar := by decide
  exact List.all_eq_true.1 (hall w hw)

theorem keyword_ne_nil {w : String} (hw : w ∈ keywords) : w.toList ≠ [] := by
  revert w
  decide

/-- Nothing is dropped in front of a name or a keyword. -/
theorem dropBlanks_word {w : List Char} (hchars : ∀ c ∈ w, isNameChar c) (hne : w ≠ []) (rest : List Char) :
    dropBlanks (w ++ rest) = w ++ rest := by
  cases w with
  | nil => exact absurd rfl hne
  | cons c cs => exact dropBlanks_nameChar (hchars c List.mem_cons_self) _

/-- A run of name characters has no mark in front. -/
theorem stops_mark_run {w : List Char} (hchars : ∀ c ∈ w, isNameChar c) (hne : w ≠ []) (rest : List Char) :
    Stops (fun c => !isNameChar c) (w ++ rest) := by
  cases w with
  | nil => exact absurd rfl hne
  | cons c cs =>
      rw [List.cons_append, stops_cons, hchars c List.mem_cons_self]
      rfl

namespace Parser

variable {α β : Type} {p q : Parser α} {f : α → Parser β} {text mid rest : List Char}
  {holds : α → Prop} {holds' : β → Prop}

/-! One step of a parser at a place. -/

theorem bind_eq {a : α} {c c' : Cursor} (h : p c = some (a, c')) : (p >>= f) c = f a c' := by
  change Option.bind (p c) _ = _
  rw [h, Option.bind_some]

theorem bind_eq_none {c : Cursor} (h : p c = none) : (p >>= f) c = none := by
  change Option.bind (p c) _ = none
  rw [h, Option.bind_none]

theorem orElse_eq {r : α × Cursor} {c : Cursor} (h : p c = some r) : (p <|> q) c = some r := by
  change (p c <|> q c) = _
  rw [h]
  rfl

theorem orElse_eq_of_none {c : Cursor} (h : p c = none) : (p <|> q) c = q c := by
  change (p c <|> q c) = _
  rw [h]
  rfl

/-- Wherever `text` stands, blanks aside, the parser reads a value that satisfies `holds` and `rest` is
    left, blanks aside. -/
def Reads (p : Parser α) (text : List Char) (holds : α → Prop) (rest : List Char) : Prop :=
  ∀ c : Cursor, dropBlanks c.rest = dropBlanks text →
    ∃ a c', p c = some (a, c') ∧ holds a ∧ dropBlanks c'.rest = dropBlanks rest

/-- Wherever `text` stands, blanks aside, the parser fails. -/
def Refuses (p : Parser α) (text : List Char) : Prop :=
  ∀ c : Cursor, dropBlanks c.rest = dropBlanks text → p c = none

theorem Reads.blanks (h : Reads p text holds rest) {text' : List Char}
    (htext : dropBlanks text' = dropBlanks text) : Reads p text' holds rest :=
  fun c hc => h c (hc.trans htext)

theorem Refuses.blanks (h : Refuses p text) {text' : List Char}
    (htext : dropBlanks text' = dropBlanks text) : Refuses p text' :=
  fun c hc => h c (hc.trans htext)

theorem Reads.imp (h : Reads p text holds rest) {holds' : α → Prop} (himp : ∀ a, holds a → holds' a) :
    Reads p text holds' rest := by
  intro c hc
  rcases h c hc with ⟨a, c', hread, ha, hrest⟩
  exact ⟨a, c', hread, himp a ha, hrest⟩

theorem Reads.pure {a : α} (ha : holds a) : Reads (pure a) text holds text :=
  fun c hc => ⟨a, c, rfl, ha, hc⟩

theorem Reads.bind (hp : Reads p text holds mid) (hf : ∀ a, holds a → Reads (f a) mid holds' rest) :
    Reads (p >>= f) text holds' rest := by
  intro c hc
  rcases hp c hc with ⟨a, c', hread, ha, hmid⟩
  rcases hf a ha c' hmid with ⟨b, c'', hread', hb, hrest⟩
  exact ⟨b, c'', bind_eq_some_iff.2 ⟨a, c', hread, hread'⟩, hb, hrest⟩

theorem Refuses.bind (hp : Refuses p text) : Refuses (p >>= f) text :=
  fun c hc => bind_eq_none (hp c hc)

theorem Reads.refuses_bind (hp : Reads p text holds mid) (hf : ∀ a, holds a → Refuses (f a) mid) :
    Refuses (p >>= f) text := by
  intro c hc
  rcases hp c hc with ⟨a, c', hread, ha, hmid⟩
  rw [bind_eq hread]
  exact hf a ha c' hmid

/-! Alternatives are tried in order. -/

theorem Reads.orElse (hp : Reads p text holds rest) : Reads (p <|> q) text holds rest := by
  intro c hc
  rcases hp c hc with ⟨a, c', hread, ha, hrest⟩
  exact ⟨a, c', orElse_eq hread, ha, hrest⟩

theorem Refuses.reads_orElse (hp : Refuses p text) (hq : Reads q text holds rest) :
    Reads (p <|> q) text holds rest := by
  intro c hc
  rw [orElse_eq_of_none (hp c hc)]
  exact hq c hc

theorem Refuses.orElse (hp : Refuses p text) (hq : Refuses q text) : Refuses (p <|> q) text := by
  intro c hc
  rw [orElse_eq_of_none (hp c hc)]
  exact hq c hc

theorem refuses_failure : Refuses (failure : Parser α) text := fun _ _ => rfl

theorem refuses_firstOf {ps : List (Parser α)} (h : ∀ p ∈ ps, Refuses p text) : Refuses (firstOf ps) text := by
  induction ps with
  | nil => exact refuses_failure
  | cons p ps ih =>
      exact (h p List.mem_cons_self).orElse (ih fun q hq => h q (List.mem_cons_of_mem p hq))

theorem Reads.optional (hp : Reads p text holds rest) :
    Reads (optional p) text (fun a? => ∃ a, a? = some a ∧ holds a) rest := by
  refine Reads.orElse ?_
  rw [map_eq_pure_bind]
  exact hp.bind fun a ha => .pure ⟨a, rfl, ha⟩

theorem Refuses.optional (hp : Refuses p text) : Reads (optional p) text (· = none) text := by
  refine Refuses.reads_orElse ?_ (.pure rfl)
  rw [map_eq_pure_bind]
  exact hp.bind

/-! Repetition goes on for as long as it can. -/

theorem repeatFrom_eq (p : Parser α) (bound : Nat) (found : List α) (c : Cursor) :
    repeatFrom p bound found c =
      (found.reverse ++ (repeatFrom p bound [] c).1, (repeatFrom p bound [] c).2) := by
  induction bound generalizing found c with
  | zero => simp [repeatFrom]
  | succ bound ih =>
      rw [repeatFrom, repeatFrom]
      cases p c with
      | none => simp
      | some r =>
          simp only [ih (r.1 :: found), ih [r.1], List.reverse_cons, List.append_assoc, List.reverse_nil,
            List.nil_append]

theorem Refuses.many {bound : Nat} (hp : Refuses p text) : Reads (many bound p) text (· = []) text := by
  intro c hc
  refine ⟨[], c, ?_, rfl, hc⟩
  cases bound with
  | zero => rfl
  | succ bound => simp only [Parser.many, repeatFrom, hp c hc, List.reverse_nil]

theorem Reads.many {bound : Nat} {holds' : List α → Prop} (hp : Reads p text holds mid)
    (hmany : Reads (many bound p) mid holds' rest) :
    Reads (many (bound + 1) p) text (fun as => ∃ a as', as = a :: as' ∧ holds a ∧ holds' as') rest := by
  intro c hc
  rcases hp c hc with ⟨a, c', hread, ha, hmid⟩
  rcases hmany c' hmid with ⟨as, c'', hread', has, hrest⟩
  refine ⟨a :: as, c'', ?_, ⟨a, as, rfl, ha, has⟩, hrest⟩
  have hrepeat := Option.some.inj hread'
  simp only [Parser.many, repeatFrom, hread, repeatFrom_eq p bound [a], hrepeat, List.reverse_cons,
    List.reverse_nil, List.nil_append, List.singleton_append]

/-! ### Tokens -/

/-- Where the blanks at the front of a cursor end. -/
def pastBlanks (c : Cursor) : Cursor := skipBlanksFrom .between c.offset c.rest

@[simp] theorem pastBlanks_rest (c : Cursor) : (pastBlanks c).rest = dropBlanks c.rest :=
  skipBlanksFrom_rest c.offset c.rest

theorem reads_start : Reads start text (fun _ => True) text := by
  intro c hc
  refine ⟨(pastBlanks c).offset, pastBlanks c, rfl, trivial, ?_⟩
  rw [pastBlanks_rest, dropBlanks_dropBlanks, hc]

theorem exactly_eq (t : String) (c : Cursor) :
    exactly t c = (t.toList.isPrefixOf? c.rest).map fun rest => ((), c.advance t.toList rest) := by
  refine (bind_eq (p := get) rfl).trans ?_
  cases t.toList.isPrefixOf? c.rest <;> rfl

theorem exactly_eq_some {t : String} {c : Cursor} (h : c.rest = t.toList ++ rest) :
    exactly t c = some ((), c.advance t.toList rest) := by
  rw [exactly_eq, List.isPrefixOf?_eq_some_iff_append_eq.2 h.symm, Option.map_some]

theorem exactly_eq_none {t : String} {c : Cursor} (h : ¬ t.toList <+: c.rest) : exactly t c = none := by
  rw [exactly_eq, Option.map_eq_none_iff, Option.eq_none_iff_forall_ne_some]
  exact fun rest hrest => h ⟨rest, List.isPrefixOf?_eq_some_iff_append_eq.1 hrest⟩

theorem literal_eq (t : String) (c : Cursor) : literal t c = exactly t (pastBlanks c) := rfl

/-- A token is read wherever it stands and nothing of it is taken for blanks. -/
theorem reads_literal {t : String} (h : dropBlanks (t.toList ++ rest) = t.toList ++ rest) :
    Reads (literal t) (t.toList ++ rest) (fun _ => True) rest := by
  intro c hc
  rw [h, ← pastBlanks_rest] at hc
  exact ⟨(), _, (literal_eq t c).trans (exactly_eq_some hc), trivial, rfl⟩

theorem refuses_literal {t : String} (h : ¬ t.toList <+: dropBlanks text) : Refuses (literal t) text := by
  intro c hc
  rw [← hc, ← pastBlanks_rest] at h
  exact (literal_eq t c).trans (exactly_eq_none h)

theorem atNameEnd_eq (c : Cursor) : atNameEnd c = if Stops isNameChar c.rest then some ((), c) else none := by
  cases c with
  | mk offset rest =>
      cases rest with
      | nil =>
          rw [if_pos (stops_nil _)]
          rfl
      | cons a as =>
          change (if isNameChar a = true then failure else pure () : Parser Unit) ⟨offset, a :: as⟩ = _
          cases ha : isNameChar a <;> simp [ha] <;> rfl

theorem reads_word {t : String} (h : dropBlanks (t.toList ++ rest) = t.toList ++ rest)
    (hrest : Stops isNameChar rest) : Reads (word t) (t.toList ++ rest) (fun _ => True) rest := by
  intro c hc
  rw [h, ← pastBlanks_rest] at hc
  refine ⟨(), (pastBlanks c).advance t.toList rest, ?_, trivial, rfl⟩
  have hread : literal t c = some ((), (pastBlanks c).advance t.toList rest) := exactly_eq_some hc
  exact (bind_eq hread).trans ((atNameEnd_eq _).trans (if_pos hrest))

/-- A word is not read where a longer one stands. -/
theorem refuses_word {t : String} (h : ∀ rest, dropBlanks text = t.toList ++ rest → ¬ Stops isNameChar rest) :
    Refuses (word t) text := by
  intro c hc
  by_cases hbegins : t.toList <+: dropBlanks text
  · rcases hbegins with ⟨rest, hrest⟩
    have hread : literal t c = some ((), (pastBlanks c).advance t.toList rest) :=
      exactly_eq_some ((pastBlanks_rest c).trans (hc.trans hrest.symm))
    exact (bind_eq hread).trans ((atNameEnd_eq _).trans (if_neg (h rest hrest.symm)))
  · exact bind_eq_none (refuses_literal hbegins c hc)

/-- The longest run of name characters is a name or nothing is read. -/
theorem name_eq (c : Cursor) (n : String) (hn : n = String.ofList ((dropBlanks c.rest).takeWhile isNameChar)) :
    Grammar.name c =
      if IsName n then
        some (n, (pastBlanks c).advance n.toList ((dropBlanks c.rest).dropWhile isNameChar))
      else none := by
  subst hn
  rw [← pastBlanks_rest]
  change (match (String.ofList ((pastBlanks c).rest.takeWhile isNameChar)).toList with
    | [] => failure
    | a :: _ =>
      if a.isDigit || keywords.contains (String.ofList ((pastBlanks c).rest.takeWhile isNameChar)) then failure
      else pure (String.ofList ((pastBlanks c).rest.takeWhile isNameChar)) : Parser String)
    ((pastBlanks c).advance ((pastBlanks c).rest.takeWhile isNameChar)
      ((pastBlanks c).rest.dropWhile isNameChar)) = _
  have hchars : ∀ a ∈ (pastBlanks c).rest.takeWhile isNameChar, isNameChar a := fun a => List.mem_takeWhile_imp
  generalize (pastBlanks c).rest.takeWhile isNameChar = taken at hchars ⊢
  cases taken with
  | nil =>
      rw [if_neg fun hname => ?_]
      · rfl
      · rcases hname.head with ⟨b, hb, -⟩
        rw [String.toList_ofList] at hb
        cases hb
  | cons a taken =>
      rw [String.toList_ofList]
      change (if a.isDigit || keywords.contains (String.ofList (a :: taken)) then failure
        else pure (String.ofList (a :: taken)) : Parser String) _ = _
      split
      · next hno =>
          rw [if_neg]
          · rfl
          · rintro ⟨-, ⟨b, hb, hdigit⟩, hkeyword⟩
            rw [String.toList_ofList] at hb
            obtain rfl := Option.some.inj hb
            rw [hdigit, Bool.false_or, List.contains_iff_mem] at hno
            exact hkeyword hno
      · next hyes =>
          rw [Bool.or_eq_true, not_or, Bool.not_eq_true, List.contains_iff_mem] at hyes
          rw [if_pos]
          · rfl
          · exact ⟨by rwa [String.toList_ofList], ⟨a, by rw [String.toList_ofList]; rfl, hyes.1⟩, hyes.2⟩

theorem reads_name {n : String} (hn : IsName n) (hrest : Stops isNameChar rest) :
    Reads Grammar.name (n.toList ++ rest) (· = n) rest := by
  intro c hc
  rw [dropBlanks_word hn.chars hn.ne_nil] at hc
  have htaken : n = String.ofList ((dropBlanks c.rest).takeWhile isNameChar) := by
    rw [hc, takeWhile_run hn.chars hrest, String.ofList_toList]
  refine ⟨n, _, (name_eq c n htaken).trans (if_pos hn), rfl, ?_⟩
  rw [hc, dropWhile_run hn.chars hrest]
  rfl

theorem refuses_name (h : ¬ IsName (String.ofList ((dropBlanks text).takeWhile isNameChar))) :
    Refuses Grammar.name text := by
  intro c hc
  rw [← hc] at h
  exact (name_eq c _ rfl).trans (if_neg h)

/-- No name begins with this character. -/
theorem refuses_name_cons {c : Char} {cs : List Char} (hsolid : dropBlanks (c :: cs) = c :: cs)
    (hc : isNameChar c = false ∨ c.isDigit) : Refuses Grammar.name (c :: cs) := by
  refine refuses_name fun hname => ?_
  rcases hname.exists_cons with ⟨d, ds, hds, hd, hdigit⟩
  rw [hsolid, String.toList_ofList, List.takeWhile_cons] at hds
  split at hds
  · next hchar =>
      obtain ⟨rfl, -⟩ := List.cons.inj hds
      rcases hc with hc | hc
      · rw [hchar] at hc
        cases hc
      · rw [hdigit] at hc
        cases hc
  · cases hds

/-- A keyword is no name. -/
theorem refuses_name_keyword {w : String} (hw : w ∈ keywords) (hrest : Stops isNameChar rest) :
    Refuses Grammar.name (w.toList ++ rest) := by
  have hchars := isNameChar_of_keyword hw
  refine refuses_name fun hname => ?_
  rw [dropBlanks_word hchars (keyword_ne_nil hw), takeWhile_run hchars hrest, String.ofList_toList] at hname
  exact hname.noKeyword hw

/-- A literal of name characters is not read where a run stands that does not begin with it. -/
theorem refuses_literal_run {t n : String} (ht : ∀ c ∈ t.toList, isNameChar c)
    (hn : ∀ c ∈ n.toList, isNameChar c) (hne : n.toList ≠ []) (hbegins : ¬ t.toList <+: n.toList) (hrest : Stops isNameChar rest) :
    Refuses (literal t) (n.toList ++ rest) := by
  refine refuses_literal ?_
  rwa [dropBlanks_word hn hne, prefix_run_iff ht hn hrest]

/-- A word is not read where a run of name characters stands that is another word. -/
theorem refuses_word_run {w n : String} (hw : ∀ c ∈ w.toList, isNameChar c) (hn : ∀ c ∈ n.toList, isNameChar c)
    (hne : n.toList ≠ []) (hother : n ≠ w) (hrest : Stops isNameChar rest) :
    Refuses (word w) (n.toList ++ rest) := by
  refine refuses_word fun rest' hrest' hend => hother ?_
  rw [dropBlanks_word hn hne] at hrest'
  have htake := congrArg (List.takeWhile isNameChar) hrest'
  rwa [takeWhile_run hn hrest, takeWhile_run hw hend, String.toList_inj] at htake

/-- A name is read neither as a keyword nor as the beginning of one. -/
theorem refuses_word_name {w n : String} (hw : w ∈ keywords) (hn : IsName n) (hrest : Stops isNameChar rest) :
    Refuses (word w) (n.toList ++ rest) :=
  refuses_word_run (isNameChar_of_keyword hw) hn.chars hn.ne_nil (fun h => hn.noKeyword (h ▸ hw)) hrest

end Parser

end FlatDae.Source
