/-
Module: FlatDae.Proofs.UnresolvedNames
Purpose: Which names without meaning are reported of a text. What is looked at is looked at completely: all
  its names that mean nothing are reported, at the places where they stand, and no others.
Main exports: Elaboration.reported, mem_reported_iff, Source.parse_unresolvedNames
-/
import FlatDae.Proofs.NameReports
import FlatDae.Proofs.TextPlaces

namespace FlatDae

namespace Elaboration

/-- All faults that are reported of a text; none if it has a model. -/
def reported (text : Source.Model) : List Located :=
  match elaborateModel text with
  | .error problems => problems
  | .ok _ => []

/-- The faults of names that are reported of a text. -/
theorem mem_reported_iff (text : Source.Model) {l : Located} (hl : l.problem.IsNaming) :
    l ∈ reported text ↔ text.Misnames l := by
  have hstart : TypesKnown (fun _ => False) ({} : Draft).model.types :=
    onlyTypes_empty.known.congr fun name _ => List.mem_nil_iff name
  have hreports : l ∈ ((buildModel text).run {}).2.problems ↔ l ∈ ({} : Draft).problems ∨ text.Misnames l :=
    (buildModel_reports text {} hstart).1 l hl
  have hsame : l ∈ reported text ↔ l ∈ ((buildModel text).run {}).2.problems := by
    have hrun : elaborateModel text =
        if ((buildModel text).run {}).2.problems.isEmpty then .ok ((buildModel text).run {}).2.model
        else .error ((buildModel text).run {}).2.problems.toList :=
      rfl
    rw [reported, hrun]
    cases hempty : ((buildModel text).run {}).2.problems.isEmpty with
    | true => simp [Array.isEmpty_iff.1 hempty]
    | false => exact Array.mem_toList_iff
  rw [hsame, hreports]
  simp

end Elaboration

namespace Source

open Elaboration (reported)

/-- A name within an expression of a text that is read stands in the text where it starts. -/
theorem standsAt_of_within {s : String} {text : Model} (h : parse s = .ok text) {e : Expression}
    (he : e ∈ text.expressions) {start : Nat} {name : String}
    (hin : (Expression.name start name).Within e) : StandsAt s start name := by
  obtain ⟨elements, c, c', last, hreadFrom, hhead, hread, -⟩ := parse_elements h
  have hcovers : (Cursor.ofString s).Covers c' ([] ++ elements.flatMap Grammar.Element.values) :=
    Parser.Finds.each (fun _ => Grammar.finds_element s.length) hread
      (Grammar.finds_head hhead (Cursor.covers_start _))
  obtain ⟨tokens, c₁, c₂, hvalue, hahead, hstand⟩ :=
    hcovers.stand _ (hreadFrom.values_subset (Model.mem_expressions.1 he))
  cases hvalue with
  | expression hwritten =>
      obtain ⟨own, hown, hname⟩ := hwritten.within hin
      obtain ⟨c₃, c₄, hfurther, hstandOwn⟩ := hstand.exists_of_isInfix hown
      obtain ⟨token, -, -, hled, hstandsAt⟩ := (hname.placed (hahead.trans hfurther) hstandOwn).leading
      have htoken : token.spelling = name := hled
      exact htoken ▸ hstandsAt

/-- Of a text that is read exactly those faults of names are reported that are in the expressions looked
    at. So all names in these that mean nothing are reported, where they stand in the text; and there is
    another fault in front of every expression that is not looked at. -/
theorem parse_unresolvedNames {s : String} {text : Model} (h : parse s = .ok text) :
    (∀ l, l.problem.IsNaming → (l ∈ reported text ↔ text.Misnames l)) ∧
    (∀ region e, text.LooksAt region e → ∀ start name, (Expression.name start name).Within e →
      StandsAt s start name ∧
        (¬ region.Known text name → { problem := region.unresolved name, start } ∈ reported text)) ∧
    ∀ e ∈ text.expressions, ∃ region, text.LooksAt region e ∨ text.PassesOver region e := by
  refine ⟨fun l => Elaboration.mem_reported_iff text, ?_, ?_⟩
  · intro region e hlooks start name hin
    refine ⟨standsAt_of_within h (Model.mem_expressions_iff.2 ⟨region, hlooks.contains⟩) hin,
      fun hknown => ?_⟩
    rw [Elaboration.mem_reported_iff text (region.unresolved_isNaming name)]
    exact ⟨region, e, hlooks, Expression.misnames_of_within hin hknown⟩
  · intro e he
    obtain ⟨region, hcontains⟩ := Model.mem_expressions_iff.1 he
    exact ⟨region, hcontains.looksAt_or_passesOver⟩

/-- Unknown names in every sort of declaration, two of them in one equation. -/
def unresolvedText : String :=
  "model A type T = Real(min = k); function f(a) = (a + b); Real x(start = y) = z; " ++
    "equation f(v) = w; end A;"

set_option maxRecDepth 100000 in
theorem unresolvedText_isOk : (parse unresolvedText).isOk = true := by decide +kernel

set_option maxRecDepth 100000 in
/-- The faults in the order in which they are found. -/
example : (parse unresolvedText).toOption.map reported =
    some [{ problem := .notLiteral "k" "T", start := 28 }, { problem := .notAnInput "b" "f", start := 53 },
      { problem := .unknownVariable "v", start := 91 }, { problem := .unknownVariable "w", start := 96 },
      { problem := .unknownVariable "y", start := 72 }, { problem := .unknownVariable "z", start := 77 }] := by
  decide +kernel

theorem parse_unresolvedNames_unresolvedText : ∃ text, parse unresolvedText = .ok text ∧
    (∀ l, l.problem.IsNaming → (l ∈ reported text ↔ text.Misnames l)) ∧
    ∀ region e, text.LooksAt region e → ∀ start name, (Expression.name start name).Within e →
      StandsAt unresolvedText start name ∧
        (¬ region.Known text name → { problem := region.unresolved name, start } ∈ reported text) := by
  have hok := unresolvedText_isOk
  cases hread : parse unresolvedText with
  | error failure =>
      rw [hread] at hok
      cases hok
  | ok text =>
      obtain ⟨hfaults, hnames, -⟩ := parse_unresolvedNames hread
      exact ⟨text, rfl, hfaults, hnames⟩

/-- The place of an expression that is a name. -/
def placeOfName? : Expression → Option (Nat × String)
  | .name start name => some (start, name)
  | _ => none

theorem placeOfName?_eq_some_iff {e : Expression} {start : Nat} {name : String} :
    placeOfName? e = some (start, name) ↔ e = .name start name := by
  cases e <;> simp [placeOfName?]

/-- A function with two outputs that are no inputs of it. -/
def unknownOutputsText : String := "model A function f(a) = (b, c); end A;"

set_option maxRecDepth 100000 in
theorem unknownOutputsText_reported :
    (parse unknownOutputsText).toOption.map (fun text =>
      text.functions.map fun d => (d.params, d.outputs.map placeOfName?)) =
        some [(["a"], [some (25, "b"), some (28, "c")])] ∧
      (parse unknownOutputsText).toOption.map reported =
        some [{ problem := .notAnInput "b" "f", start := 25 }] := by
  decide +kernel

/-- Not every name that means nothing is reported: the fault of the first output hides that of the second. -/
theorem parse_unresolvedNames_unknownOutputsText :
    ¬ ∀ s text, parse s = .ok text → ∀ region e, text.Contains region e → ∀ start name,
      (Expression.name start name).Within e → ¬ region.Known text name →
        { problem := region.unresolved name, start } ∈ reported text := by
  intro hall
  obtain ⟨hfunctions, hfaults⟩ := unknownOutputsText_reported
  cases hread : parse unknownOutputsText with
  | error failure =>
      rw [hread] at hfunctions
      cases hfunctions
  | ok text =>
      rw [hread] at hfunctions hfaults
      have hfunctions : text.functions.map (fun d => (d.params, d.outputs.map placeOfName?)) = _ :=
        Option.some.inj hfunctions
      have hfaults : reported text = _ := Option.some.inj hfaults
      obtain ⟨d, hd, hshape⟩ : ∃ d ∈ text.functions,
          (d.params, d.outputs.map placeOfName?) = (["a"], [some (25, "b"), some (28, "c")]) :=
        List.mem_map.1 (hfunctions ▸ List.mem_cons_self)
      obtain ⟨hparams, houtputs⟩ := Prod.mk.inj hshape
      obtain ⟨e, he, hplace⟩ : ∃ e ∈ d.outputs, placeOfName? e = some (28, "c") :=
        List.mem_map.1 (houtputs ▸ List.mem_cons_of_mem _ List.mem_cons_self)
      obtain rfl := placeOfName?_eq_some_iff.1 hplace
      have hunknown : ¬ (Region.function d.name d.params).Known text "c" := by
        change "c" ∉ d.params
        simp [hparams]
      have hmem := hall _ text hread _ _ (.output hd he) 28 "c" (.self _) hunknown
      rw [hfaults] at hmem
      simp [Region.unresolved] at hmem

end Source

end FlatDae
