/-
Module: FlatDae.Proofs.ParserAgreement
Purpose: Two parsers that take the same characters and answer differently. They agree if at every place
  both fail, or both go on to the same place with answers that are related; agreement passes through
  sequences, alternatives and repetitions. A rule that leaves a pair agrees with the reader of what the
  rule means, where blanks in front make no difference to that reader.
Main exports: Parser.AgreeAt, Parser.Agree, Agree.bind, Agree.many, Agree.separated, SkipsBlanks,
  Agree.pair, Agree.token
-/
import FlatDae.Proofs.TokenPlaces
import FlatDae.Proofs.SyntaxPairs

namespace FlatDae.Source

namespace Parser

variable {α β σ τ : Type} {P : Parser σ} {p : Parser α} {R : σ → α → Prop} {c : Cursor}

/-- At this place both parsers fail, or both read and go on to the same place, with related answers. -/
inductive AgreeAt (P : Parser σ) (p : Parser α) (R : σ → α → Prop) (c : Cursor) : Prop where
  | fail (hP : P c = none) (hp : p c = none)
  | read {s : σ} {a : α} {c' : Cursor} (hP : P c = some (s, c')) (hp : p c = some (a, c')) (hR : R s a)

/-- The parsers agree at every place. -/
def Agree (P : Parser σ) (p : Parser α) (R : σ → α → Prop) : Prop := ∀ c, AgreeAt P p R c

namespace AgreeAt

theorem imp {S : σ → α → Prop} (h : AgreeAt P p R c) (himp : ∀ s a, R s a → S s a) : AgreeAt P p S c := by
  cases h with
  | fail hP hp => exact .fail hP hp
  | read hP hp hR => exact .read hP hp (himp _ _ hR)

/-- What two parsers do at a place others may do at another place. -/
theorem congr {P' : Parser σ} {p' : Parser α} {c' : Cursor} (h : AgreeAt P' p' R c') (hP : P c = P' c')
    (hp : p c = p' c') : AgreeAt P p R c := by
  cases h with
  | fail hP' hp' => exact .fail (hP.trans hP') (hp.trans hp')
  | read hP' hp' hR => exact .read (hP.trans hP') (hp.trans hp') hR

theorem pure {s : σ} {a : α} (h : R s a) : AgreeAt (pure s) (pure a) R c := .read rfl rfl h

theorem refl (p : Parser α) (c : Cursor) : AgreeAt p p Eq c := by
  cases hp : p c with
  | none => exact .fail hp hp
  | some r => exact .read hp hp rfl

theorem bind {F : σ → Parser τ} {f : α → Parser β} {S : τ → β → Prop} (h : AgreeAt P p R c)
    (hf : ∀ s a c', R s a → P c = some (s, c') → AgreeAt (F s) (f a) S c') :
    AgreeAt (P >>= F) (p >>= f) S c := by
  cases h with
  | fail hP hp => exact .fail (bind_eq_none hP) (bind_eq_none hp)
  | read hP hp hR =>
      cases hf _ _ _ hR hP with
      | fail hF hf => exact .fail ((bind_eq hP).trans hF) ((bind_eq hp).trans hf)
      | read hF hf hS => exact .read ((bind_eq hP).trans hF) ((bind_eq hp).trans hf) hS

theorem orElse {P' : Parser σ} {p' : Parser α} (h : AgreeAt P p R c) (h' : AgreeAt P' p' R c) :
    AgreeAt (P <|> P') (p <|> p') R c := by
  cases h with
  | fail hP hp =>
      cases h' with
      | fail hP' hp' =>
          exact .fail ((orElse_eq_of_none hP).trans hP') ((orElse_eq_of_none hp).trans hp')
      | read hP' hp' hR =>
          exact .read ((orElse_eq_of_none hP).trans hP') ((orElse_eq_of_none hp).trans hp') hR
  | read hP hp hR => exact .read (orElse_eq hP) (orElse_eq hp) hR

end AgreeAt

namespace Agree

theorem imp {S : σ → α → Prop} (h : Agree P p R) (himp : ∀ s a, R s a → S s a) : Agree P p S :=
  fun c => (h c).imp himp

theorem pure {s : σ} {a : α} (h : R s a) : Agree (pure s) (pure a) R := fun _ => .pure h

theorem failure : Agree (failure : Parser σ) (failure : Parser α) R := fun _ => .fail rfl rfl

theorem bind {F : σ → Parser τ} {f : α → Parser β} {S : τ → β → Prop} (h : Agree P p R)
    (hf : ∀ s a, R s a → Agree (F s) (f a) S) : Agree (P >>= F) (p >>= f) S :=
  fun c => (h c).bind fun s a c' hR _ => hf s a hR c'

/-- Both begin with the same parser. -/
theorem both {F : β → Parser σ} {f : β → Parser α} (q : Parser β) (hf : ∀ b, Agree (F b) (f b) R) :
    Agree (q >>= F) (q >>= f) R := by
  refine bind (fun c => .refl q c) ?_
  rintro b _ rfl
  exact hf b

/-- One of them answers in another form. -/
theorem returning {S : σ → β → Prop} {g : α → β} (h : Agree P p R) (hg : ∀ s a, R s a → S s (g a)) :
    Agree P (do return g (← p)) S := by
  rw [← bind_pure P]
  exact h.bind fun s a hR => pure (hg s a hR)

theorem wrapping {S : τ → α → Prop} {g : σ → τ} (h : Agree P p R) (hg : ∀ s a, R s a → S (g s) a) :
    Agree (do return g (← P)) p S := by
  rw [← bind_pure p]
  exact h.bind fun s a hR => pure (hg s a hR)

theorem orElse {P' : Parser σ} {p' : Parser α} (h : Agree P p R) (h' : Agree P' p' R) :
    Agree (P <|> P') (p <|> p') R :=
  fun c => (h c).orElse (h' c)

/-- What may be missing is missing for both. -/
theorem option (h : Agree P p R) : Agree (optional P) (optional p) (Option.Rel R) := by
  refine orElse ?_ (pure .none)
  rw [map_eq_pure_bind, map_eq_pure_bind]
  exact h.bind fun s a hR => pure (.some hR)

/-- What may be missing, one of them has another answer for. -/
theorem optionOr (b : α) (h : Agree P p R) :
    Agree (optional P) (p <|> Pure.pure b)
      fun s? a => (∃ s, s? = some s ∧ R s a) ∨ s? = none ∧ a = b := by
  refine orElse ?_ (pure (Or.inr ⟨rfl, rfl⟩))
  rw [map_eq_pure_bind]
  exact h.wrapping fun s a hR => Or.inl ⟨s, rfl, hR⟩

theorem many (h : Agree P p R) (bound : Nat) :
    Agree (many bound P) (many bound p) (List.Forall₂ R) := by
  induction bound with
  | zero => exact pure .nil
  | succ bound ih =>
      intro c
      cases h c with
      | fail hP hp =>
          have hnone : Parser.many (bound + 1) P c = some ([], c) := by
            simp only [Parser.many, repeatFrom, hP, List.reverse_nil]
          have hnone' : Parser.many (bound + 1) p c = some ([], c) := by
            simp only [Parser.many, repeatFrom, hp, List.reverse_nil]
          exact .read hnone hnone' .nil
      | @read s a c' hP hp hR =>
          cases ih c' with
          | fail hP' => cases hP'
          | @read ss as c'' hP' hp' hRs =>
              have hcons : Parser.many (bound + 1) P c = some (s :: ss, c'') := by
                simp only [Parser.many, repeatFrom, hP, repeatFrom_eq P bound [s], Option.some.inj hP',
                  List.reverse_cons, List.reverse_nil, List.nil_append, List.singleton_append]
              have hcons' : Parser.many (bound + 1) p c = some (a :: as, c'') := by
                simp only [Parser.many, repeatFrom, hp, repeatFrom_eq p bound [a], Option.some.inj hp',
                  List.reverse_cons, List.reverse_nil, List.nil_append, List.singleton_append]
              exact .read hcons hcons' (.cons hR hRs)

theorem separated (h : Agree P p R) (bound : Nat) :
    Agree (separated bound P) (separated bound p) (List.Forall₂ R) := by
  have hlater : Agree (literal "," *> P) (literal "," *> p) R := by
    rw [seqRight_eq_bind, seqRight_eq_bind]
    exact both _ fun _ => h
  exact h.bind fun s a hR => (hlater.many bound).bind fun ss as hRs => pure (.cons hR hRs)

/-- One or more, or none at all. -/
theorem listed (h : Agree P p R) (bound : Nat) :
    Agree (Parser.separated bound P <|> Pure.pure []) (Parser.separated bound p <|> Pure.pure [])
      (List.Forall₂ R) :=
  (h.separated bound).orElse (pure .nil)

end Agree

/-! ### Blanks in front -/

/-- It makes no difference to the parser whether the blanks in front have been skipped. -/
def SkipsBlanks (p : Parser α) : Prop := ∀ c, p (pastBlanks c) = p c

namespace SkipsBlanks

theorem skipBlanks : SkipsBlanks skipBlanks := by
  intro c
  change some ((), pastBlanks (pastBlanks c)) = some ((), pastBlanks c)
  rw [pastBlanks_pastBlanks]

theorem bind {f : α → Parser β} (h : SkipsBlanks p) : SkipsBlanks (p >>= f) := by
  intro c
  change Option.bind (p (pastBlanks c)) _ = Option.bind (p c) _
  rw [h c]

theorem start : SkipsBlanks start := skipBlanks.bind

theorem literal (t : String) : SkipsBlanks (literal t) := skipBlanks.bind

theorem word (t : String) : SkipsBlanks (word t) := (literal t).bind

theorem orElse {q : Parser α} (h : SkipsBlanks p) (h' : SkipsBlanks q) : SkipsBlanks (p <|> q) := by
  intro c
  change (p (pastBlanks c) <|> q (pastBlanks c)) = (p c <|> q c)
  rw [h c, h' c]

theorem failure : SkipsBlanks (failure : Parser α) := fun _ => rfl

theorem firstOf {ps : List (Parser α)} (h : ∀ p ∈ ps, SkipsBlanks p) : SkipsBlanks (firstOf ps) := by
  induction ps with
  | nil => exact failure
  | cons p ps ih => exact (h p List.mem_cons_self).orElse (ih fun q hq => h q (List.mem_cons_of_mem p hq))

theorem name : SkipsBlanks Grammar.name := skipBlanks.bind

/-- Skipping them first changes nothing. -/
theorem start_bind (h : SkipsBlanks p) : (Parser.start >>= fun _ => p) = p := by
  funext c
  exact h c

end SkipsBlanks

end Parser

/-! ### Rules -/

open FlatDae.Source.Parser

/-- What was passed is the text between the two places. -/
theorem Cursor.Passes.textTo {c c' : Cursor} {taken : List Char} (h : c.Passes taken c') :
    c.textTo c' = String.ofList taken := by
  rw [Cursor.textTo, h.rest, List.length_append, Nat.add_sub_cancel, List.take_left]

namespace Parser

variable {α β : Type} {kind : Rule} {body : Parser (List Pair)} {R : Pair → α → Prop} {c : Cursor}

/-- The pair that a rule leaves has the characters that were taken. -/
theorem pairHere_eq {inner : List Pair} {c' : Cursor} (h : body c = some (inner, c')) :
    Pairs.pairHere kind body c = some (.mk kind c.offset (c.textTo c') inner, c') :=
  (bind_eq (p := get) rfl).trans ((bind_eq h).trans (bind_eq (p := get) rfl))

theorem pairHere_eq_none (h : body c = none) : Pairs.pairHere kind body c = none :=
  (bind_eq (p := get) rfl).trans (bind_eq_none h)

theorem AgreeAt.pairHere {q : Parser α} {S : List Pair → α → Prop} (h : AgreeAt body q S c)
    (hS : ∀ inner a text, S inner a → R (.mk kind c.offset text inner) a) :
    AgreeAt (Pairs.pairHere kind body) q R c := by
  cases h with
  | fail hbody hq => exact .fail (pairHere_eq_none hbody) hq
  | read hbody hq hR => exact .read (pairHere_eq hbody) hq (hS _ _ _ hR)

/-- Whether a rule agrees with a reader is to be asked where the blanks end. -/
theorem Agree.behindBlanks {q : Nat → Parser α}
    (h : ∀ c, pastBlanks c = c → AgreeAt (Pairs.pairHere kind body) (q c.offset) R c) :
    Agree (Pairs.pair kind body) (start >>= q) R := by
  intro c
  have hstart : start c = some ((pastBlanks c).offset, pastBlanks c) := rfl
  have hskip : skipBlanks c = some ((), pastBlanks c) := rfl
  cases h (pastBlanks c) (pastBlanks_pastBlanks c) with
  | fail hP hp => exact .fail ((bind_eq hskip).trans hP) ((bind_eq hstart).trans hp)
  | read hP hp hR => exact .read ((bind_eq hskip).trans hP) ((bind_eq hstart).trans hp) hR

/-- A rule agrees with a reader if its parts do. -/
theorem Agree.pair {q : Nat → Parser α} (h : ∀ c, pastBlanks c = c →
    AgreeAt body (q c.offset) (fun inner a => ∀ text, R (.mk kind c.offset text inner) a) c) :
    Agree (Pairs.pair kind body) (start >>= q) R :=
  behindBlanks fun c hc => (h c hc).pairHere fun _ _ text hR => hR text

/-- The same for a reader that skips the blanks by itself. -/
theorem Agree.rule {q : Parser α} (hq : SkipsBlanks q)
    (h : Agree body q fun inner a => ∀ start text, R (.mk kind start text inner) a) :
    Agree (Pairs.pair kind body) q R := by
  rw [← hq.start_bind]
  exact .pair fun c _ => (h c).imp fun _ _ hR => hR c.offset

/-- Where no blanks stand in front, the characters that the parser takes are as `T` says of its answer. -/
def Takes (p : Parser α) (T : α → List Char → Prop) : Prop :=
  ∀ ⦃c a c'⦄, pastBlanks c = c → p c = some (a, c') → ∃ taken, c.Passes taken c' ∧ T a taken

/-- A token agrees with a reader of the same characters. -/
theorem Agree.token {p : Parser β} {T : β → List Char → Prop} {q : Nat → Parser α} (hp : Takes p T)
    (h : ∀ c, pastBlanks c = c → AgreeAt p (q c.offset)
      (fun b a => ∀ taken, T b taken → R (.mk kind c.offset (String.ofList taken) []) a) c) :
    Agree (Pairs.token kind p) (start >>= q) R := by
  refine behindBlanks fun c hc => ?_
  cases h c hc with
  | fail hread hq => exact .fail (pairHere_eq_none (bind_eq_none hread)) hq
  | read hread hq hR =>
      obtain ⟨taken, hpasses, hT⟩ := hp hc hread
      refine .read (pairHere_eq (bind_eq hread)) hq ?_
      rw [hpasses.textTo]
      exact hR taken hT

/-- A token agrees with the parser of its characters. -/
theorem Agree.token_self {p : Parser α} {T : α → List Char → Prop} (hskips : SkipsBlanks p)
    (hp : Takes p T) (h : ∀ start a taken, T a taken → R (.mk kind start (String.ofList taken) []) a) :
    Agree (Pairs.token kind p) p R := by
  have hself : Agree (Pairs.token kind p) (start >>= fun _ => p) R := .token hp fun c _ =>
    (AgreeAt.refl p c).imp fun a b hab taken hT => h c.offset b taken (hab ▸ hT)
  rwa [hskips.start_bind] at hself

end Parser

end FlatDae.Source
