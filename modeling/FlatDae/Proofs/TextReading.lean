/-
Module: FlatDae.Proofs.TextReading
Purpose: How a model text is read. Behind the head of the model its elements stand one after the other,
  each beginning where the one before it ends, up to the end of the model and of the text. An element is
  one declaration or one section, and the equations of a section stand one after the other in the same
  way. So every equation of the text belongs to one section, and the equations of all sections of a sort
  come together in the order of the text.
Main exports: Parser.Each, Grammar.Element.Reads, Model.ReadFrom, parse_readFrom
-/
import FlatDae.Source.Grammar

namespace FlatDae.Source

/-! ### Parsers -/

namespace Parser

/-- The items stand one after the other between the two places, where `reads a c c'` says that the item
    `a` stands between `c` and `c'`. -/
inductive Each {α : Type} (reads : α → Cursor → Cursor → Prop) : List α → Cursor → Cursor → Prop where
  | nil (c : Cursor) : Each reads [] c c
  | cons {a : α} {as : List α} {c c' c'' : Cursor} (hfirst : reads a c c') (hrest : Each reads as c' c'') :
      Each reads (a :: as) c c''

variable {α β : Type} {p : Parser α} {c c' : Cursor}

theorem Each.imp {reads reads' : α → Cursor → Cursor → Prop} {as : List α} (h : Each reads as c c')
    (himp : ∀ a c c', reads a c c' → reads' a c c') : Each reads' as c c' := by
  induction h with
  | nil c => exact .nil c
  | cons hfirst _ ih => exact .cons (himp _ _ _ hfirst) ih

/-- What is read one after the other goes on where a part of it ends. -/
theorem Each.of_append {before after : List α} {c'' : Cursor}
    (hbefore : Each (fun a c c' => p c = some (a, c')) before c c')
    (h : Each (fun a c c' => p c = some (a, c')) (before ++ after) c c'') :
    Each (fun a c c' => p c = some (a, c')) after c' c'' := by
  induction hbefore with
  | nil c => exact h
  | cons hfirst _ ih =>
      cases h with
      | cons hfirst' hrest =>
          rw [hfirst] at hfirst'
          obtain ⟨-, rfl⟩ := Prod.mk.inj (Option.some.inj hfirst')
          exact ih hrest

/-- One parser after the other. -/
theorem bind_eq_some_iff {f : α → Parser β} {b : β} {c'' : Cursor} :
    (p >>= f) c = some (b, c'') ↔ ∃ a c', p c = some (a, c') ∧ f a c' = some (b, c'') := by
  change Option.bind (p c) (fun r => f r.1 r.2) = some (b, c'') ↔ _
  rw [Option.bind_eq_some_iff, Prod.exists]

theorem pure_eq_some_iff {a b : α} : (pure a : Parser α) c = some (b, c') ↔ a = b ∧ c = c' := by
  change some (a, c) = some (b, c') ↔ _
  rw [Option.some.injEq, Prod.mk.injEq]

/-- Of several parsers one of them reads. -/
theorem exists_of_firstOf {ps : List (Parser α)} {r : α × Cursor} (h : firstOf ps c = some r) :
    ∃ p ∈ ps, p c = some r := by
  induction ps with
  | nil => cases h
  | cons p ps ih =>
      cases hp : p c with
      | some r' =>
          have hfirst : firstOf (p :: ps) c = some r' := by
            change (p c <|> firstOf ps c) = some r'
            rw [hp]
            rfl
          exact ⟨p, List.mem_cons_self, hp.trans (hfirst.symm.trans h)⟩
      | none =>
          have hrest : firstOf (p :: ps) c = firstOf ps c := by
            change (p c <|> firstOf ps c) = _
            rw [hp]
            rfl
          obtain ⟨q, hq, hread⟩ := ih (hrest.symm.trans h)
          exact ⟨q, List.mem_cons_of_mem p hq, hread⟩

/-- What is found again and again stands one after the other, behind what was found before. -/
theorem repeatFrom_reads (p : Parser α) (bound : Nat) (found : List α) (c : Cursor) :
    ∃ as, (repeatFrom p bound found c).1 = found.reverse ++ as ∧
      Each (fun a c c' => p c = some (a, c')) as c (repeatFrom p bound found c).2 := by
  induction bound generalizing found c with
  | zero => exact ⟨[], (List.append_nil _).symm, .nil c⟩
  | succ bound ih =>
      rw [repeatFrom]
      cases hp : p c with
      | none => exact ⟨[], (List.append_nil _).symm, .nil c⟩
      | some r =>
          obtain ⟨as, has, heach⟩ := ih (r.1 :: found) r.2
          exact ⟨r.1 :: as, by rw [has, List.reverse_cons, List.append_assoc, List.singleton_append],
            .cons hp heach⟩

theorem many_reads {bound : Nat} {as : List α} (h : many bound p c = some (as, c')) :
    Each (fun a c c' => p c = some (a, c')) as c c' := by
  obtain ⟨as', has, heach⟩ := repeatFrom_reads p bound [] c
  obtain ⟨rfl, rfl⟩ := Prod.mk.inj (Option.some.inj h)
  rw [has]
  exact heach

end Parser

/-! ### Models -/

namespace Grammar

open FlatDae.Source.Parser

/-- The head of a model, with the place where it starts. -/
def head : Parser (Nat × String) := do
  let offset ← start
  literal "model"
  return (offset, ← name)

/-- The end of a model and of the text. -/
def ending : Parser Unit := do
  literal "end"
  let _ ← name
  literal ";"
  atEnd

/-- Nothing is left at the end of the text. -/
theorem rest_of_atEnd {c c' : Cursor} (h : atEnd c = some ((), c')) : c'.rest = [] := by
  obtain ⟨_, c₁, -, h⟩ := bind_eq_some_iff.1 h
  obtain ⟨found, c₂, hget, h⟩ := bind_eq_some_iff.1 h
  obtain ⟨rfl, rfl⟩ := Prod.mk.inj (Option.some.inj hget)
  cases hrest : c₁.rest with
  | nil =>
      rw [hrest] at h
      obtain ⟨-, rfl⟩ := pure_eq_some_iff.1 h
      exact hrest
  | cons a as =>
      rw [hrest] at h
      cases h

/-- The equations stand one after the other between the two places. -/
def Equations (bound : Nat) : List Equation → Cursor → Cursor → Prop :=
  Each fun eq c c' => equation bound c = some (eq, c')

/-- The element stands between the two places. -/
inductive Element.Reads (bound : Nat) : Element → Cursor → Cursor → Prop where
  | type {d : TypeDeclaration} {c c' : Cursor} (h : typeDeclaration bound c = some (d, c')) :
      Reads bound (.type d) c c'
  | function {d : FunctionDeclaration} {c c' : Cursor} (h : functionDeclaration bound c = some (d, c')) :
      Reads bound (.function d) c c'
  | component {d : Component} {c c' : Cursor} (h : Grammar.component bound c = some (d, c')) :
      Reads bound (.component d) c c'
  | initialSection {eqs : List Equation} {c c₁ c₂ c' : Cursor}
      (hinitial : literal "initial" c = some ((), c₁)) (hequation : literal "equation" c₁ = some ((), c₂))
      (heqs : Equations bound eqs c₂ c') : Reads bound (.initialSection eqs) c c'
  | equationSection {eqs : List Equation} {c c₁ c' : Cursor}
      (hequation : literal "equation" c = some ((), c₁)) (heqs : Equations bound eqs c₁ c') :
      Reads bound (.equationSection eqs) c c'

/-- What is read as an element stands there. -/
theorem element_reads {bound : Nat} {e : Element} {c c' : Cursor} (h : element bound c = some (e, c')) :
    e.Reads bound c c' := by
  obtain ⟨p, hp, hread⟩ := exists_of_firstOf h
  simp only [List.mem_cons, List.not_mem_nil, or_false] at hp
  rcases hp with rfl | rfl | rfl | rfl | rfl
  · obtain ⟨d, c₁, hd, hpure⟩ := bind_eq_some_iff.1 hread
    obtain ⟨rfl, rfl⟩ := pure_eq_some_iff.1 hpure
    exact .type hd
  · obtain ⟨d, c₁, hd, hpure⟩ := bind_eq_some_iff.1 hread
    obtain ⟨rfl, rfl⟩ := pure_eq_some_iff.1 hpure
    exact .function hd
  · obtain ⟨_, c₁, hinitial, hread⟩ := bind_eq_some_iff.1 hread
    obtain ⟨_, c₂, hequation, hread⟩ := bind_eq_some_iff.1 hread
    obtain ⟨eqs, c₃, heqs, hpure⟩ := bind_eq_some_iff.1 hread
    obtain ⟨rfl, rfl⟩ := pure_eq_some_iff.1 hpure
    exact .initialSection hinitial hequation (many_reads heqs)
  · obtain ⟨_, c₁, hequation, hread⟩ := bind_eq_some_iff.1 hread
    obtain ⟨eqs, c₂, heqs, hpure⟩ := bind_eq_some_iff.1 hread
    obtain ⟨rfl, rfl⟩ := pure_eq_some_iff.1 hpure
    exact .equationSection hequation (many_reads heqs)
  · obtain ⟨d, c₁, hd, hpure⟩ := bind_eq_some_iff.1 hread
    obtain ⟨rfl, rfl⟩ := pure_eq_some_iff.1 hpure
    exact .component hd

namespace Element

/-- The type that an element declares. -/
def type? : Element → Option TypeDeclaration
  | .type d => some d
  | _ => none

/-- The function that an element declares. -/
def function? : Element → Option FunctionDeclaration
  | .function d => some d
  | _ => none

/-- The component that an element declares. -/
def component? : Element → Option Component
  | .component c => some c
  | _ => none

/-- The equations of an initial section. -/
def initialEquations : Element → List Equation
  | .initialSection eqs => eqs
  | _ => []

/-- The equations of a plain section. -/
def equations : Element → List Equation
  | .equationSection eqs => eqs
  | _ => []

end Element

end Grammar

open Grammar (Element)

/-- The text consists of the elements between the head and the end of a model, and the tree has the
    parts of the elements in the order of the text. -/
structure Model.ReadFrom (text : Model) (s : String) (elements : List Element) : Prop where
  read : ∃ c c' last, Grammar.head (.ofString s) = some ((text.start, text.name), c) ∧
    Parser.Each (Element.Reads s.length) elements c c' ∧ Grammar.ending c' = some ((), last) ∧
    last.rest = []
  types : text.types = elements.filterMap Element.type?
  functions : text.functions = elements.filterMap Element.function?
  components : text.components = elements.filterMap Element.component?
  initialEquations : text.initialEquations = elements.flatMap Element.initialEquations
  equations : text.equations = elements.flatMap Element.equations

/-- The parts of elements that are lists come together in order. -/
theorem flatten_filterMap_eq_flatMap {α β : Type} {part : α → Option (List β)} {parts : α → List β}
    (h : ∀ a, parts a = (part a).getD []) (as : List α) :
    (as.filterMap part).flatten = as.flatMap parts := by
  induction as with
  | nil => rfl
  | cons a as ih =>
      rw [List.flatMap_cons, h a, ← ih, List.filterMap_cons]
      cases part a <;> rfl

/-- What is read as a model consists of elements between a head and an end, each of which is what is read
    as an element where it stands. -/
theorem wholeText_elements {s : String} {text : Model} {last : Cursor}
    (h : Grammar.wholeText s.length (.ofString s) = some (text, last)) :
    ∃ elements c c' last, text.ReadFrom s elements ∧
      Grammar.head (.ofString s) = some ((text.start, text.name), c) ∧
      Parser.Each (fun e c c' => Grammar.element s.length c = some (e, c')) elements c c' ∧
      Grammar.ending c' = some ((), last) := by
  obtain ⟨_, c₁, hmodel, h⟩ := Parser.bind_eq_some_iff.1 h
  obtain ⟨_, c₂, hend, hpure⟩ := Parser.bind_eq_some_iff.1 h
  obtain ⟨rfl, rfl⟩ := Parser.pure_eq_some_iff.1 hpure
  obtain ⟨offset, c₃, hstart, hmodel⟩ := Parser.bind_eq_some_iff.1 hmodel
  obtain ⟨_, c₄, hword, hmodel⟩ := Parser.bind_eq_some_iff.1 hmodel
  obtain ⟨declared, c₅, hname, hmodel⟩ := Parser.bind_eq_some_iff.1 hmodel
  obtain ⟨elements, c₆, hmany, hmodel⟩ := Parser.bind_eq_some_iff.1 hmodel
  obtain ⟨_, c₇, hword', hmodel⟩ := Parser.bind_eq_some_iff.1 hmodel
  obtain ⟨closing, c₈, hname', hmodel⟩ := Parser.bind_eq_some_iff.1 hmodel
  obtain ⟨_, c₉, hsemicolon, hpure⟩ := Parser.bind_eq_some_iff.1 hmodel
  obtain ⟨rfl, rfl⟩ := Parser.pure_eq_some_iff.1 hpure
  have hhead : Grammar.head (.ofString s) = some ((offset, declared), c₅) :=
    Parser.bind_eq_some_iff.2 ⟨_, _, hstart, Parser.bind_eq_some_iff.2 ⟨_, _, hword,
      Parser.bind_eq_some_iff.2 ⟨_, _, hname, rfl⟩⟩⟩
  have hending : Grammar.ending c₆ = some ((), c₂) :=
    Parser.bind_eq_some_iff.2 ⟨_, _, hword', Parser.bind_eq_some_iff.2 ⟨_, _, hname',
      Parser.bind_eq_some_iff.2 ⟨_, _, hsemicolon, hend⟩⟩⟩
  have hread := Parser.many_reads hmany
  have heach := hread.imp fun _ _ _ => Grammar.element_reads
  refine ⟨elements, c₅, c₆, c₂, ⟨⟨c₅, c₆, c₂, hhead, heach, hending, Grammar.rest_of_atEnd hend⟩,
    ?_, ?_, ?_, ?_, ?_⟩, hhead, hread, hending⟩
  · exact congrArg (List.filterMap · elements) (funext fun e => by cases e <;> rfl)
  · exact congrArg (List.filterMap · elements) (funext fun e => by cases e <;> rfl)
  · exact congrArg (List.filterMap · elements) (funext fun e => by cases e <;> rfl)
  · exact flatten_filterMap_eq_flatMap (fun e => by cases e <;> rfl) elements
  · exact flatten_filterMap_eq_flatMap (fun e => by cases e <;> rfl) elements

/-- A text that is read consists of elements between a head and an end, each of which is what is read as an
    element where it stands. -/
theorem parse_elements {s : String} {text : Model} (h : parse s = .ok text) :
    ∃ elements c c' last, text.ReadFrom s elements ∧
      Grammar.head (.ofString s) = some ((text.start, text.name), c) ∧
      Parser.Each (fun e c c' => Grammar.element s.length c = some (e, c')) elements c c' ∧
      Grammar.ending c' = some ((), last) := by
  unfold parse at h
  cases hrun : (Grammar.wholeText s.length).run (.ofString s) with
  | none =>
      rw [hrun] at h
      cases h
  | some r =>
      simp only [hrun] at h
      split at h
      · obtain rfl := Except.ok.inj h
        exact wholeText_elements hrun
      · cases h

/-- A text that is read consists of elements between a head and an end. -/
theorem parse_readFrom {s : String} {text : Model} (h : parse s = .ok text) :
    ∃ elements, text.ReadFrom s elements := by
  obtain ⟨elements, -, -, -, hread, -⟩ := parse_elements h
  exact ⟨elements, hread⟩

end FlatDae.Source
