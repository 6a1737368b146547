/-
Module: FlatDae.Proofs.ExpressionElaboration
Purpose: What is checked while expressions are built. An expression is built exactly if it is well
  formed over the signatures and the scope at hand; otherwise it is reported, however many of its parts
  are. The same goes for lists of expressions and for attributes.
Main exports: Scope.Known, Signatures.Declares, elaborateExpression_checks, elaborateInTurn_checks,
  elaborateAttributes_checks
-/
import FlatDae.Proofs.FaultChecks
import FlatDae.Proofs.WellFormedText

namespace FlatDae.Elaboration

open Source (settingExpressions)
open Source.Expression (CallFits)

/-- Whether a name means something in a scope. -/
def Scope.Known (scope : Scope) (name : String) : Prop := (scope.find? name).isSome = true

/-- Whether a function has a signature with so many inputs and outputs. -/
def Signatures.Declares (signatures : Signatures) (function : String) (inputs outputs : Nat) : Prop :=
  signatures[function]? = some ⟨inputs, outputs⟩

theorem lookUp_checks (scope : Scope) (start : Nat) (name : String) :
    Checks (fun _ => True) (lookUp scope start name) (scope.Known name)
      fun found _ => found.isSome = true := by
  unfold lookUp Scope.Known
  cases scope.find? name with
  | none => exact (Checks.refuse start _).congr (by simp)
  | some symbol => exact (Checks.pure fun _ _ => rfl).congr (by simp)

/-- A call of a function with a signature asks for its number of arguments and one of its outputs. -/
theorem Signatures.callFits_iff {signatures : Signatures} {function : String} {signature : Signature}
    (hfunction : ¬ Source.IsBuiltin function) (hsignature : signatures[function]? = some signature)
    (args : Nat) (output : Option Nat) : CallFits signatures.Declares function args output ↔
      args = signature.inputs ∧ output.getD 0 < signature.outputs := by
  rw [Source.Expression.callFits_declared_iff hfunction]
  unfold Signatures.Declares
  rw [hsignature]
  constructor
  · rintro ⟨outputs, hsame, houtput⟩
    rw [Option.some.inj hsame]
    exact ⟨rfl, houtput⟩
  · rintro ⟨hargs, houtput⟩
    exact ⟨signature.outputs, by rw [hargs], houtput⟩

/-- A call over arguments that are built. -/
theorem elaborateCall_checks (signatures : Signatures) (start : Nat) (function : String)
    (args : List Expr) (output : Option Nat) :
    Checks (fun _ => True) (elaborateCall signatures start function args output)
      (CallFits signatures.Declares function args.length output) fun built _ => built.isSome = true := by
  have hbuiltin : ((UnaryOp.ofName? function).isSome || function == "der") = true ↔
      Source.IsBuiltin function := by
    rw [Bool.or_eq_true, beq_iff_eq, Source.IsBuiltin, or_comm]
  unfold elaborateCall
  by_cases hfunction : Source.IsBuiltin function
  · rw [Source.Expression.callFits_builtin_iff hfunction]
    simp only [hbuiltin.2 hfunction, if_true]
    split
    · split
      · exact (Checks.makeSome _).congr (iff_of_true trivial ⟨rfl, rfl⟩)
      · exact (Checks.makeSome _).congr (iff_of_true trivial ⟨rfl, rfl⟩)
    · rename_i hother
      apply Checks.congr (.refuse start _)
      apply Iff.intro False.elim
      rintro ⟨hlength, rfl⟩
      obtain ⟨arg, rfl⟩ := List.length_eq_one_iff.1 hlength
      exact hother arg rfl rfl
  · simp only [mt hbuiltin.1 hfunction]
    cases hsignature : signatures[function]? with
    | none =>
        apply Checks.congr (.refuse start _)
        rw [Source.Expression.callFits_declared_iff hfunction]
        simp [Signatures.Declares, hsignature]
    | some signature =>
        rw [Signatures.callFits_iff hfunction hsignature]
        by_cases hlength : args.length = signature.inputs
        · by_cases houtput : output.getD 0 < signature.outputs
          · simp only [hlength, bne_self_eq_false, Nat.not_le.2 houtput, if_false, Bool.false_eq_true]
            exact (Checks.makeSome _).congr (iff_of_true trivial ⟨trivial, houtput⟩)
          · simp only [hlength, bne_self_eq_false, Nat.not_lt.1 houtput, if_true, if_false,
              Bool.false_eq_true]
            exact (Checks.refuse start _).congr ⟨False.elim, fun h => houtput h.2⟩
        · simp only [bne_iff_ne.2 hlength, if_true]
          exact (Checks.refuse start _).congr ⟨False.elim, fun h => hlength h.1⟩

mutual

/-- An expression is checked as a whole. -/
theorem elaborateExpression_checks (signatures : Signatures) (scope : Scope) :
    ∀ e : Source.Expression, Checks (fun _ => True) (elaborateExpression signatures scope e)
      (e.WellFormed signatures.Declares scope.Known) fun built _ => built.isSome = true
  | .number start value => by
      rw [elaborateExpression]
      exact (Checks.makeSome _).congr ⟨fun _ => .number start value, fun _ => trivial⟩
  | .truth start value => by
      rw [elaborateExpression]
      exact (Checks.makeSome _).congr ⟨fun _ => .truth start value, fun _ => trivial⟩
  | .name start name => by
      rw [elaborateExpression]
      exact (lookUp_checks scope start name).congr Source.Expression.wellFormed_name_iff.symm
  | .signed start sign operand => by
      rw [elaborateExpression, Source.Expression.wellFormed_signed_iff]
      apply Checks.before (elaborateExpression_checks signatures scope operand)
      intro built
      cases built with
      | none => exact .pure_of_not (by simp)
      | some child =>
          cases sign with
          | minus => exact .makeSome _
          | plus => exact .pure fun _ _ => rfl
          | not => exact .makeSome _
  | .binary start op left right => by
      rw [elaborateExpression, Source.Expression.wellFormed_binary_iff]
      apply Checks.bind (elaborateExpression_checks signatures scope left)
      intro left?
      apply Checks.before ((elaborateExpression_checks signatures scope right).keeping _)
      intro right?
      cases left? with
      | none => exact .pure_of_not (by simp)
      | some left =>
          cases right? with
          | none => exact .pure_of_not (by simp)
          | some right => exact .makeSome _
  | .call start function args output => by
      rw [elaborateExpression, Source.Expression.wellFormed_call_iff]
      apply Checks.bind (elaborateAll_checks signatures scope args)
      intro args?
      cases hargs : allPresent args? with
      | none => exact .pure_of_not (by simp)
      | some built =>
          apply Checks.adapt (elaborateCall_checks signatures start function built output)
          rintro s ⟨args', hargs', hlength⟩
          rw [← hlength, ← Option.some.inj hargs']
          exact ⟨trivial, Iff.rfl, fun _ _ h => h⟩

/-- Each of the expressions is checked. -/
theorem elaborateAll_checks (signatures : Signatures) (scope : Scope) :
    ∀ es : List Source.Expression, Checks (fun _ => True) (elaborateAll signatures scope es)
      (∀ e ∈ es, e.WellFormed signatures.Declares scope.Known)
      fun built _ => ∃ args, allPresent built = some args ∧ args.length = es.length
  | [] => by
      rw [elaborateAll]
      apply Checks.congr (.pure fun _ _ => ⟨[], rfl, rfl⟩)
      simp
  | e :: es => by
      rw [elaborateAll, List.forall_mem_cons]
      apply Checks.bind (elaborateExpression_checks signatures scope e)
      intro built
      apply Checks.before ((elaborateAll_checks signatures scope es).keeping _)
      intro more
      apply Checks.pure
      rintro s ⟨hbuilt, args, hargs, hlength⟩
      obtain ⟨arg, rfl⟩ := Option.isSome_iff_exists.1 hbuilt
      exact ⟨arg :: args, by rw [allPresent, hargs]; rfl, by rw [List.length_cons, hlength]; rfl⟩

end

/-! ### Lists of expressions and attributes -/

/-- Expressions built in turn are checked up to the first fault. -/
theorem elaborateInTurn_checks (signatures : Signatures) (scope : Scope)
    (es : List Source.Expression) :
    Checks (fun _ => True) (elaborateInTurn signatures scope es)
      (∀ e ∈ es, e.WellFormed signatures.Declares scope.Known) fun built _ => built.isSome = true := by
  induction es with
  | nil =>
      rw [elaborateInTurn]
      apply Checks.congr (.pure fun _ _ => rfl)
      simp
  | cons e es ih =>
      rw [elaborateInTurn, List.forall_mem_cons]
      apply Checks.bind (elaborateExpression_checks signatures scope e)
      intro built
      cases built with
      | none => exact .pure_of_not (by simp)
      | some built =>
          apply Checks.before (ih.keeping _)
          intro more
          cases more with
          | none => exact .pure_of_not (by simp)
          | some more => exact .pure fun _ _ => rfl

theorem elaborateAttribute_checks (signatures : Signatures) (scope : Scope)
    (value : Source.AttributeValue) :
    Checks (fun _ => True) (elaborateAttribute signatures scope value)
      (∀ e, value = .expression e → e.WellFormed signatures.Declares scope.Known)
      fun built _ => built.isSome = true := by
  cases value with
  | text start s =>
      rw [elaborateAttribute]
      apply Checks.congr (.pure fun _ _ => rfl)
      simp
  | expression e =>
      rw [elaborateAttribute]
      have he : (∀ e', Source.AttributeValue.expression e = .expression e' →
          e'.WellFormed signatures.Declares scope.Known) ↔
          e.WellFormed signatures.Declares scope.Known := by
        simp
      rw [he]
      apply Checks.before (elaborateExpression_checks signatures scope e)
      intro built
      apply Checks.pure
      intro s hbuilt
      rw [Option.isSome_map, hbuilt]

/-- The expressions of settings are those of the first and those of the others. -/
theorem forall_mem_settingExpressions_cons {p : Source.Expression → Prop}
    {setting : Source.AttributeSetting} {settings : List Source.AttributeSetting} :
    (∀ e ∈ settingExpressions (setting :: settings), p e) ↔
      (∀ e, setting.value = .expression e → p e) ∧ ∀ e ∈ settingExpressions settings, p e := by
  unfold settingExpressions
  cases hvalue : setting.value with
  | text start s => simp [hvalue]
  | expression e => simp [hvalue]

/-- The values of attributes are checked. -/
theorem elaborateAttributes_checks (signatures : Signatures) (scope : Scope)
    (settings : List Source.AttributeSetting) :
    Checks (fun _ => True) (elaborateAttributes signatures scope settings)
      (∀ e ∈ settingExpressions settings, e.WellFormed signatures.Declares scope.Known)
      fun _ _ => True := by
  induction settings with
  | nil =>
      rw [elaborateAttributes]
      apply Checks.congr (.pure fun _ _ => trivial)
      simp [settingExpressions]
  | cons setting settings ih =>
      rw [elaborateAttributes, forall_mem_settingExpressions_cons]
      apply Checks.bind (elaborateAttribute_checks signatures scope setting.value)
      intro value
      apply Checks.before (ih.keeping _)
      intro more
      cases value with
      | none => exact .pure fun _ _ => trivial
      | some value => exact .pure fun _ _ => trivial

end FlatDae.Elaboration
