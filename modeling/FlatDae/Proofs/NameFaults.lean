/-
Module: FlatDae.Proofs.NameFaults
Purpose: Which names without meaning are reported while expressions are built. An action reports faults
  beside those that were reported before, and actions in sequence report the faults of all of them. An
  expression is looked at as a whole: every name in it that means nothing is reported where it stands, and
  so is every unknown function whose arguments have no fault.
Main exports: Problem.IsNaming, Source.Expression.Misnames, Reports, Reports.bind,
  elaborateExpression_reports, elaborateInTurn_reports, elaborateAttributes_reports
-/
import FlatDae.Proofs.ExpressionElaboration
import FlatDae.Proofs.ExpressionPlaces

namespace FlatDae

open Elaboration (Problem Located)

/-- The faults of names that mean nothing where they stand. -/
def Elaboration.Problem.IsNaming : Problem → Prop
  | .unknownVariable _ | .notAnInput _ _ | .notLiteral _ _ | .unknownFunction _ => True
  | _ => False

/-! ### Faults of an expression -/

namespace Source.Expression

variable {declares : String → Nat → Nat → Prop} {known : String → Prop} {fault : String → Problem}

/-- The faults of names in an expression: of each name that is not known, at its place, and of functions that
    are not declared, if nothing is wrong with the arguments. -/
inductive Misnames (declares : String → Nat → Nat → Prop) (known : String → Prop)
    (fault : String → Problem) : Expression → Located → Prop where
  | name (start : Nat) {name : String} (hknown : ¬ known name) :
      Misnames declares known fault (.name start name) { problem := fault name, start }
  | function (start : Nat) {function : String} {args : List Expression} (output : Option Nat)
      (hbuiltin : ¬ IsBuiltin function) (hnone : ∀ inputs outputs, ¬ declares function inputs outputs)
      (hargs : ∀ arg ∈ args, arg.WellFormed declares known) :
      Misnames declares known fault (.call start function args output)
        { problem := .unknownFunction function, start }
  | operand {operand e : Expression} {l : Located} (hop : operand ∈ e.operands)
      (hfault : Misnames declares known fault operand l) : Misnames declares known fault e l

/-- A name that is not known is a fault of every expression around it. -/
theorem misnames_of_within {start : Nat} {name : String} {e : Expression}
    (hin : (Expression.name start name).Within e) (hknown : ¬ known name) :
    e.Misnames declares known fault { problem := fault name, start } := by
  generalize hpart : Expression.name start name = part at hin
  induction hin with
  | self => exact hpart ▸ .name start hknown
  | deeper hop _ ih => exact .operand hop ih

theorem misnames_name_iff {start : Nat} {name : String} {l : Located} :
    (Expression.name start name).Misnames declares known fault l ↔
      ¬ known name ∧ l = { problem := fault name, start } := by
  constructor
  · intro h
    cases h with
    | name _ hknown => exact ⟨hknown, rfl⟩
    | operand hop => cases hop
  · rintro ⟨hknown, rfl⟩
    exact .name start hknown

/-- An expression that is no call and no name has the faults of its operands. -/
theorem misnames_iff_operands {e : Expression} {l : Located} (hname : ∀ start name, e ≠ .name start name)
    (hcall : ∀ start function args output, e ≠ .call start function args output) :
    e.Misnames declares known fault l ↔
      ∃ operand ∈ e.operands, operand.Misnames declares known fault l := by
  constructor
  · intro h
    cases h with
    | name => exact absurd rfl (hname _ _)
    | function => exact absurd rfl (hcall _ _ _ _)
    | operand hop hfault => exact ⟨_, hop, hfault⟩
  · rintro ⟨operand, hop, hfault⟩
    exact .operand hop hfault

/-- The fault of the function itself. -/
def MisnamesFunction (declares : String → Nat → Nat → Prop) (start : Nat) (function : String)
    (l : Located) : Prop :=
  ¬ IsBuiltin function ∧ (∀ inputs outputs, ¬ declares function inputs outputs) ∧
    l = { problem := .unknownFunction function, start }

theorem misnames_call_iff {start : Nat} {function : String} {args : List Expression} {output : Option Nat}
    {l : Located} : (Expression.call start function args output).Misnames declares known fault l ↔
      (∃ arg ∈ args, arg.Misnames declares known fault l) ∨
        (∀ arg ∈ args, arg.WellFormed declares known) ∧ MisnamesFunction declares start function l := by
  constructor
  · intro h
    cases h with
    | function _ _ hbuiltin hnone hargs => exact Or.inr ⟨hargs, hbuiltin, hnone, rfl⟩
    | operand hop hfault => exact Or.inl ⟨_, hop, hfault⟩
  · rintro (⟨arg, harg, hfault⟩ | ⟨hargs, hbuiltin, hnone, rfl⟩)
    · exact .operand harg hfault
    · exact .function start output hbuiltin hnone hargs

end Source.Expression

namespace Elaboration

open Source (settingExpressions IsBuiltin)
open Source.Expression (CallFits MisnamesFunction)

/-! ### Actions that report faults -/

/-- States in which the faults found are listed. -/
class FaultLog (σ : Type) where
  faults : σ → Array Located

export FaultLog (faults)

instance : FaultLog Progress := ⟨(·.problems)⟩

instance : FaultLog Draft := ⟨(·.problems)⟩

/-- Where `pre` holds, the action reports the faults of names that are `found`, and no other ones beside
    those that were reported before; `post` holds of its result and the state it leads to. -/
def Reports {σ α : Type} [FaultLog σ] (pre : σ → Prop) (x : StateM σ α) (found : Located → Prop)
    (post : α → σ → Prop) : Prop :=
  ∀ s, pre s → (∀ l, l.problem.IsNaming → (l ∈ faults (x.run s).2 ↔ l ∈ faults s ∨ found l)) ∧
    post (x.run s).1 (x.run s).2

namespace Reports

section Rules

variable {σ α β : Type} [FaultLog σ] {pre pre' : σ → Prop} {found found' : Located → Prop}
  {x : StateM σ α} {f : α → StateM σ β} {post post' : α → σ → Prop} {post'' : β → σ → Prop}

/-- The same faults, put otherwise. -/
theorem adapt (h : Reports pre x found post)
    (hpre : ∀ s, pre' s → pre s ∧ (∀ l, found l ↔ found' l) ∧ ∀ a s', post a s' → post' a s') :
    Reports pre' x found' post' := by
  intro s hs
  obtain ⟨hstart, hfound, hpost⟩ := hpre s hs
  obtain ⟨hfaults, ha⟩ := h s hstart
  refine ⟨fun l hl => ?_, hpost _ _ ha⟩
  rw [hfaults l hl, hfound l]

theorem congr (h : Reports pre x found post) (hfound : ∀ l, found l ↔ found' l) :
    Reports pre x found' post :=
  h.adapt fun _ hs => ⟨hs, hfound, fun _ _ ha => ha⟩

theorem weaken (h : Reports pre x found post) (hpost : ∀ a s, post a s → post' a s) :
    Reports pre x found post' :=
  h.adapt fun _ hs => ⟨hs, fun _ => Iff.rfl, hpost⟩

theorem strengthen (h : Reports pre x found post) (hpre : ∀ s, pre' s → pre s) :
    Reports pre' x found post :=
  fun s hs => h s (hpre s hs)

/-- A fact about all states is there for everything that follows. -/
theorem assume {fact : Prop} (h : fact → Reports pre x found post) :
    Reports (fun s => fact ∧ pre s) x found post :=
  fun s hs => h hs.1 s hs.2

theorem given {fact : Prop} (h : fact → Reports (fun _ => True) x found post) :
    Reports (fun _ => fact) x found post :=
  fun s hs => h hs s trivial

/-- One action after the other. -/
theorem bind (h : Reports pre x found post) (hf : ∀ a, Reports (post a) (f a) found' post'') :
    Reports pre (x >>= f) (fun l => found l ∨ found' l) post'' := by
  intro s hs
  obtain ⟨hfaults, ha⟩ := h s hs
  obtain ⟨hfaults', hb⟩ := hf (x.run s).1 (x.run s).2 ha
  refine ⟨fun l hl => ?_, hb⟩
  rw [← or_assoc, ← hfaults l hl]
  exact hfaults' l hl

/-- An action that reports nothing. -/
theorem silent (hfaults : ∀ s, faults (x.run s).2 = faults s)
    (hpost : ∀ s, pre s → post (x.run s).1 (x.run s).2) : Reports pre x (fun _ => False) post :=
  fun s hs => ⟨fun l _ => by rw [hfaults s, or_false], hpost s hs⟩

theorem pure {a : α} (hpost : ∀ s, pre s → post a s) :
    Reports pre (Pure.pure a : StateM σ α) (fun _ => False) post :=
  silent (fun _ => rfl) hpost

/-- What comes after an action that reports nothing. -/
theorem after (h : Reports pre x (fun _ => False) post)
    (hf : ∀ a, Reports (post a) (f a) found' post'') : Reports pre (x >>= f) found' post'' :=
  (h.bind hf).congr fun _ => iff_of_eq (false_or _)

/-- What comes before an action that reports nothing. -/
theorem before (h : Reports pre x found post)
    (hf : ∀ a, Reports (post a) (f a) (fun _ => False) post'') : Reports pre (x >>= f) found post'' :=
  (h.bind hf).congr fun _ => iff_of_eq (or_false _)

/-- What is true by now stays so. -/
theorem keeping (h : Reports (fun _ => True) x found post) (fact : Prop) :
    Reports (fun _ => fact) x found fun a s => fact ∧ post a s :=
  fun s hs => ⟨(h s trivial).1, hs, (h s trivial).2⟩

theorem discard (h : Reports pre x found post) :
    Reports pre (Functor.discard x) found fun _ s => ∃ a, post a s :=
  fun s hs => ⟨(h s hs).1, _, (h s hs).2⟩

/-- One action for each member of a list, in states that stay as they are in some respect. -/
theorem forM {xs : List β} {act : β → StateM σ Unit} {foundBy : β → Located → Prop}
    (h : ∀ b ∈ xs, Reports pre (act b) (foundBy b) fun _ => pre) :
    Reports pre (xs.forM act) (fun l => ∃ b ∈ xs, foundBy b l) fun _ => pre := by
  induction xs with
  | nil =>
      have hnil : Reports pre (Pure.pure () : StateM σ Unit) (fun _ => False) fun _ => pre :=
        .pure fun _ hs => hs
      exact hnil.congr fun l => by simp
  | cons b xs ih =>
      have hrest := ih fun b' hb' => h b' (List.mem_cons_of_mem b hb')
      exact ((h b List.mem_cons_self).bind fun _ => hrest).congr fun l => by simp

end Rules

section Expressions

variable {α : Type} {pre : Progress → Prop}

theorem make (new : Fresh α) {post : α → Progress → Prop}
    (hpost : ∀ progress : Progress, pre progress →
      post (new.run progress.supply).1 { progress with supply := (new.run progress.supply).2 }) :
    Reports pre (Elaboration.make new) (fun _ => False) post :=
  silent (fun _ => rfl) hpost

/-- A node is made where there should be one. -/
theorem makeSome (new : Fresh α) {p : Prop} (hp : p) :
    Reports pre (do return some (← Elaboration.make new)) (fun _ => False)
      fun built _ => built.isSome = true ↔ p :=
  silent (fun _ => rfl) fun _ _ => iff_of_true rfl hp

/-- No node is made where there should be none. -/
theorem none {p : Prop} (hp : ¬ p) : Reports pre (Pure.pure (Option.none : Option α))
    (fun _ => False) fun built _ => built.isSome = true ↔ p :=
  .pure fun _ _ => iff_of_false Bool.false_ne_true hp

theorem report (start : Nat) (problem : Problem) :
    Reports pre (Elaboration.report start problem) (· = { problem, start }) fun _ _ => True :=
  fun _ _ => ⟨fun _ _ => Array.mem_push, trivial⟩

/-- A fault that is none of a name. -/
theorem report_other (start : Nat) {problem : Problem} (h : ¬ problem.IsNaming) :
    Reports pre (Elaboration.report start problem) (fun _ => False) fun _ _ => True := by
  intro progress _
  refine ⟨fun l hl => ?_, trivial⟩
  refine Array.mem_push.trans (or_congr_right (iff_false_intro ?_))
  rintro rfl
  exact h hl

/-- Where a fault is reported no node is made. -/
theorem refuse (start : Nat) (problem : Problem) {p : Prop} (hp : ¬ p) :
    Reports pre (Elaboration.refuse start problem : Elaborating (Option α)) (· = { problem, start })
      fun built _ => built.isSome = true ↔ p :=
  (report start problem).before fun _ => none hp

theorem refuse_other (start : Nat) {problem : Problem} (h : ¬ problem.IsNaming) {p : Prop} (hp : ¬ p) :
    Reports pre (Elaboration.refuse start problem : Elaborating (Option α)) (fun _ => False)
      fun built _ => built.isSome = true ↔ p :=
  (report_other start h).before fun _ => none hp

end Expressions

end Reports

/-! ### Expressions -/

theorem lookUp_reports (scope : Scope) (start : Nat) (name : String) :
    Reports (fun _ => True) (lookUp scope start name)
      (fun l => ¬ scope.Known name ∧ l = { problem := scope.unresolved name, start })
      fun found _ => found.isSome = true ↔ scope.Known name := by
  unfold lookUp Scope.Known
  cases scope.find? name with
  | none =>
      have hrefuse : Reports (fun _ => True) (refuse start (scope.unresolved name) : Elaborating (Option Expr))
          (· = { problem := scope.unresolved name, start })
          fun found _ => found.isSome = true ↔ (none : Option Expr).isSome = true :=
        .refuse start _ Bool.false_ne_true
      exact hrefuse.congr fun l => by simp
  | some symbol =>
      have hfound : Reports (fun _ => True) (pure (some symbol) : Elaborating (Option Expr)) (fun _ => False)
          fun found _ => found.isSome = true ↔ (some symbol).isSome = true := .pure fun _ _ => Iff.rfl
      exact hfound.congr fun l => by simp

/-- Of the faults of a call itself only an unknown function is one of a name. -/
theorem elaborateCall_reports (signatures : Signatures) (start : Nat) (function : String)
    (args : List Expr) (output : Option Nat) :
    Reports (fun _ => True) (elaborateCall signatures start function args output)
      (MisnamesFunction signatures.Declares start function)
      fun built _ => built.isSome = true ↔ CallFits signatures.Declares function args.length output := by
  have hbuiltin : ((UnaryOp.ofName? function).isSome || function == "der") = true ↔ IsBuiltin function := by
    rw [Bool.or_eq_true, beq_iff_eq, IsBuiltin, or_comm]
  unfold elaborateCall
  by_cases hfunction : IsBuiltin function
  · have hnone (l : Located) : False ↔ MisnamesFunction signatures.Declares start function l :=
      ⟨False.elim, fun h => h.1 hfunction⟩
    rw [Source.Expression.callFits_builtin_iff hfunction]
    simp only [hbuiltin.2 hfunction, if_true]
    split
    · split
      · exact (Reports.makeSome _ ⟨rfl, rfl⟩).congr hnone
      · exact (Reports.makeSome _ ⟨rfl, rfl⟩).congr hnone
    · rename_i hother
      refine Reports.congr (.refuse_other start id ?_) hnone
      rintro ⟨hlength, rfl⟩
      obtain ⟨arg, rfl⟩ := List.length_eq_one_iff.1 hlength
      exact hother arg rfl rfl
  · simp only [mt hbuiltin.1 hfunction]
    cases hsignature : signatures[function]? with
    | none =>
        have hundeclared (inputs outputs : Nat) : ¬ signatures.Declares function inputs outputs := by
          simp [Signatures.Declares, hsignature]
        refine Reports.congr (.refuse start _ ?_) fun l => ?_
        · rw [Source.Expression.callFits_declared_iff hfunction]
          rintro ⟨outputs, hdeclares, -⟩
          exact hundeclared _ outputs hdeclares
        · exact ⟨fun hl => ⟨hfunction, hundeclared, hl⟩, fun h => h.2.2⟩
    | some signature =>
        have hnone (l : Located) : False ↔ MisnamesFunction signatures.Declares start function l :=
          ⟨False.elim, fun h => h.2.1 signature.inputs signature.outputs hsignature⟩
        rw [Signatures.callFits_iff hfunction hsignature]
        by_cases hlength : args.length = signature.inputs
        · by_cases houtput : output.getD 0 < signature.outputs
          · simp only [hlength, bne_self_eq_false, Nat.not_le.2 houtput, if_false, Bool.false_eq_true]
            exact (Reports.makeSome _ ⟨trivial, houtput⟩).congr hnone
          · simp only [hlength, bne_self_eq_false, Nat.not_lt.1 houtput, if_true, if_false,
              Bool.false_eq_true]
            exact Reports.congr (.refuse_other start id fun h => houtput h.2) hnone
        · simp only [bne_iff_ne.2 hlength, if_true]
          exact Reports.congr (.refuse_other start id fun h => hlength h.1) hnone

/-- The faults of names in an expression that is built over signatures in a scope. -/
abbrev Misnamed (signatures : Signatures) (scope : Scope) (e : Source.Expression) (l : Located) : Prop :=
  e.Misnames signatures.Declares scope.Known scope.unresolved l

section Expressions

variable {signatures : Signatures} {scope : Scope} {l : Located}

/-- Constants have no names. -/
theorem not_misnamed {e : Source.Expression} (hnone : e.operands = [])
    (hname : ∀ start name, e ≠ .name start name)
    (hcall : ∀ start function args output, e ≠ .call start function args output) :
    False ↔ Misnamed signatures scope e l := by
  rw [Misnamed, Source.Expression.misnames_iff_operands hname hcall, hnone]
  simp

theorem misnamed_signed_iff {start : Nat} {sign : Source.Sign} {operand : Source.Expression} :
    Misnamed signatures scope (.signed start sign operand) l ↔ Misnamed signatures scope operand l := by
  rw [Misnamed, Source.Expression.misnames_iff_operands (by simp) (by simp)]
  simp [Source.Expression.operands]

theorem misnamed_binary_iff {start : Nat} {op : BinaryOp} {left right : Source.Expression} :
    Misnamed signatures scope (.binary start op left right) l ↔
      Misnamed signatures scope left l ∨ Misnamed signatures scope right l := by
  rw [Misnamed, Source.Expression.misnames_iff_operands (by simp) (by simp)]
  simp [Source.Expression.operands]

end Expressions

mutual

/-- Building an expression reports its faults, and there is something built if it is well formed. -/
theorem elaborateExpression_reports (signatures : Signatures) (scope : Scope) :
    ∀ e : Source.Expression, Reports (fun _ => True) (elaborateExpression signatures scope e)
      (Misnamed signatures scope e)
      fun built _ => built.isSome = true ↔ e.WellFormed signatures.Declares scope.Known
  | .number start value => by
      rw [elaborateExpression]
      exact (Reports.makeSome _ (.number start value)).congr fun _ => not_misnamed rfl (by simp) (by simp)
  | .truth start value => by
      rw [elaborateExpression]
      exact (Reports.makeSome _ (.truth start value)).congr fun _ => not_misnamed rfl (by simp) (by simp)
  | .name start name => by
      rw [elaborateExpression, Source.Expression.wellFormed_name_iff]
      exact (lookUp_reports scope start name).congr fun _ => Source.Expression.misnames_name_iff.symm
  | .signed start sign operand => by
      rw [elaborateExpression, Source.Expression.wellFormed_signed_iff]
      refine Reports.congr (.before (elaborateExpression_reports signatures scope operand) fun built => ?_)
        fun _ => misnamed_signed_iff.symm
      cases built with
      | none => exact .pure fun _ hs => hs
      | some child =>
          cases sign with
          | minus => exact .silent (fun _ => rfl) fun _ hs => hs
          | plus => exact .pure fun _ hs => hs
          | not => exact .silent (fun _ => rfl) fun _ hs => hs
  | .binary start op left right => by
      rw [elaborateExpression, Source.Expression.wellFormed_binary_iff]
      refine Reports.congr (.bind (elaborateExpression_reports signatures scope left) fun left? => ?_)
        fun _ => misnamed_binary_iff.symm
      refine .before (.keeping (elaborateExpression_reports signatures scope right) _) fun right? => ?_
      refine .given fun ⟨hleft, hright⟩ => ?_
      cases left? with
      | none => exact .none fun hwf => Bool.false_ne_true (hleft.2 hwf.1)
      | some left =>
          cases right? with
          | none => exact .none fun hwf => Bool.false_ne_true (hright.2 hwf.2)
          | some right => exact .makeSome _ ⟨hleft.1 rfl, hright.1 rfl⟩
  | .call start function args output => by
      rw [elaborateExpression, Source.Expression.wellFormed_call_iff]
      refine Reports.congr (.bind (elaborateAll_reports signatures scope args) fun built => ?_)
        fun _ => Source.Expression.misnames_call_iff.symm
      refine .given fun ⟨hargs, hlength⟩ => ?_
      cases hall : allPresent built with
      | none =>
          rw [hall] at hargs
          have hnot (hwf : ∀ arg ∈ args, arg.WellFormed signatures.Declares scope.Known) : False :=
            Bool.false_ne_true (hargs.2 hwf)
          exact Reports.congr (.none fun hwf => hnot hwf.1) fun _ => ⟨False.elim, fun h => hnot h.1⟩
      | some children =>
          rw [hall] at hargs
          have hwf := hargs.1 rfl
          have hcall := elaborateCall_reports signatures start function children output
          rw [hlength children hall] at hcall
          exact (hcall.weaken fun _ _ h => by rw [h, and_iff_right hwf]).congr
            fun _ => (and_iff_right hwf).symm

/-- Building each of the expressions reports the faults of all. -/
theorem elaborateAll_reports (signatures : Signatures) (scope : Scope) :
    ∀ es : List Source.Expression, Reports (fun _ => True) (elaborateAll signatures scope es)
      (fun l => ∃ e ∈ es, Misnamed signatures scope e l)
      fun built _ => ((allPresent built).isSome = true ↔
          ∀ e ∈ es, e.WellFormed signatures.Declares scope.Known) ∧
        ∀ args, allPresent built = some args → args.length = es.length
  | [] => by
      rw [elaborateAll]
      refine Reports.congr (.pure fun _ _ => ⟨by simp [allPresent], ?_⟩) fun l => by simp
      rintro args hargs
      cases hargs
      rfl
  | e :: es => by
      rw [elaborateAll]
      refine Reports.congr (.bind (elaborateExpression_reports signatures scope e) fun built => ?_)
        fun l => by rw [List.exists_mem_cons_iff]
      refine .before (.keeping (elaborateAll_reports signatures scope es) _) fun more => ?_
      refine .pure fun _ ⟨hbuilt, hmore, hlength⟩ => ?_
      rw [List.forall_mem_cons, ← hbuilt, ← hmore]
      cases built with
      | none => exact ⟨by simp [allPresent], by simp [allPresent]⟩
      | some built =>
          cases hall : allPresent more with
          | none => exact ⟨by simp [allPresent, hall], by simp [allPresent, hall]⟩
          | some args =>
              refine ⟨by simp [allPresent, hall], ?_⟩
              simp [allPresent, hall, hlength args hall]

end

/-! ### Lists of expressions and attributes -/

/-- The expression is in the list, and those in front of it are all well formed. -/
def InTurn (wellFormed : Source.Expression → Prop) (es : List Source.Expression)
    (e : Source.Expression) : Prop :=
  ∃ before rest, es = before ++ e :: rest ∧ ∀ e' ∈ before, wellFormed e'

theorem inTurn_cons_iff {wellFormed : Source.Expression → Prop} {first e : Source.Expression}
    {es : List Source.Expression} :
    InTurn wellFormed (first :: es) e ↔ e = first ∨ wellFormed first ∧ InTurn wellFormed es e := by
  constructor
  · rintro ⟨before, rest, hsplit, hbefore⟩
    cases before with
    | nil => exact Or.inl (List.cons.inj hsplit).1.symm
    | cons e' before =>
        obtain ⟨rfl, rfl⟩ := List.cons.inj hsplit
        rw [List.forall_mem_cons] at hbefore
        exact Or.inr ⟨hbefore.1, before, rest, rfl, hbefore.2⟩
  · rintro (rfl | ⟨hfirst, before, rest, rfl, hbefore⟩)
    · exact ⟨[], es, rfl, by simp⟩
    · exact ⟨first :: before, rest, rfl, List.forall_mem_cons.2 ⟨hfirst, hbefore⟩⟩

/-- Of expressions that are built in turn those behind a fault are not looked at. -/
theorem elaborateInTurn_reports (signatures : Signatures) (scope : Scope) (es : List Source.Expression) :
    Reports (fun _ => True) (elaborateInTurn signatures scope es)
      (fun l => ∃ e, InTurn (·.WellFormed signatures.Declares scope.Known) es e ∧
        Misnamed signatures scope e l)
      fun _ _ => True := by
  induction es with
  | nil =>
      rw [elaborateInTurn]
      exact Reports.congr (.pure fun _ _ => trivial) fun l => by simp [InTurn]
  | cons first es ih =>
      rw [elaborateInTurn]
      simp only [inTurn_cons_iff, or_and_right, exists_or, exists_eq_left]
      refine .bind (elaborateExpression_reports signatures scope first) fun built => .given fun hbuilt => ?_
      cases built with
      | none =>
          refine Reports.congr (.pure fun _ _ => trivial) fun l => ⟨False.elim, ?_⟩
          rintro ⟨e, ⟨hfirst, -⟩, -⟩
          exact Bool.false_ne_true (hbuilt.2 hfirst)
      | some built =>
          have hfirst := hbuilt.1 rfl
          simp only [hfirst, true_and]
          refine .before ih fun more => ?_
          cases more with
          | none => exact .pure fun _ _ => trivial
          | some more => exact .pure fun _ _ => trivial

theorem elaborateAttribute_reports (signatures : Signatures) (scope : Scope)
    (value : Source.AttributeValue) :
    Reports (fun _ => True) (elaborateAttribute signatures scope value)
      (fun l => ∃ e, value = .expression e ∧ Misnamed signatures scope e l) fun _ _ => True := by
  cases value with
  | text start s =>
      rw [elaborateAttribute]
      exact Reports.congr (.pure fun _ _ => trivial) fun l => by simp
  | expression e =>
      rw [elaborateAttribute]
      refine Reports.congr (.before (elaborateExpression_reports signatures scope e) fun built => ?_)
        fun l => by simp
      exact .pure fun _ _ => trivial

/-- The values of all attributes are looked at. -/
theorem elaborateAttributes_reports (signatures : Signatures) (scope : Scope)
    (settings : List Source.AttributeSetting) :
    Reports (fun _ => True) (elaborateAttributes signatures scope settings)
      (fun l => ∃ e ∈ settingExpressions settings, Misnamed signatures scope e l) fun _ _ => True := by
  induction settings with
  | nil =>
      rw [elaborateAttributes]
      exact Reports.congr (.pure fun _ _ => trivial) fun l => by simp [settingExpressions]
  | cons setting settings ih =>
      rw [elaborateAttributes]
      refine Reports.congr (.bind (elaborateAttribute_reports signatures scope setting.value) fun value =>
        .before ih fun more => ?_) fun l => ?_
      · cases value with
        | none => exact .pure fun _ _ => trivial
        | some value => exact .pure fun _ _ => trivial
      · unfold settingExpressions
        cases hvalue : setting.value with
        | text start s => simp [hvalue]
        | expression e => simp [hvalue]

end Elaboration

end FlatDae
