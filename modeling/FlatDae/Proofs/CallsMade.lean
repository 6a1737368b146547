/-
Module: FlatDae.Proofs.CallsMade
Purpose: The calls that an evaluation makes. An evaluation makes a call if it fails whenever that one call
  is refused, and with the error that the call is refused with. A fault of a function is one of a call
  that is made, a call that is made stands in the expression, and an expression has a value only if every
  call in it has one.
Main exports: Environment.refusing, Environment.Makes, treeValue_mono, treeValue_fault,
  Environment.exists_makes, Environment.Makes.evaluate_eq_error, Environment.Makes.mentions,
  Environment.exists_call_eq_ok
-/
import FlatDae.Proofs.TableAgreement

namespace FlatDae

open FlatDae.Expr (Graph)

namespace Expr

variable {e : Expr} {function : String}

/-- An expression mentions the function that it is a call of, and those that its children mention. -/
theorem mentions_iff : e.Mentions function ↔
    (∃ id args output, e = .call id function args output) ∨ ∃ c ∈ e.children, c.Mentions function := by
  constructor
  · rintro ⟨id, args, output, hin⟩
    cases hin with
    | self => exact Or.inl ⟨id, args, output, rfl⟩
    | deeper hc hin => exact Or.inr ⟨_, hc, id, args, output, hin⟩
  · rintro (⟨id, args, output, rfl⟩ | ⟨c, hc, id, args, output, hin⟩)
    · exact ⟨id, args, output, .self _⟩
    · exact ⟨id, args, output, .deeper hc hin⟩

/-- There are no calls in a symbol. -/
theorem Mentions.isSymbol_eq_false (h : e.Mentions function) : e.isSymbol = false := by
  obtain ⟨id, args, output, rfl⟩ | ⟨c, hc, -⟩ := mentions_iff.1 h
  · rfl
  · cases e with
    | symbol => exact absurd hc List.not_mem_nil
    | _ => rfl

end Expr

/-- One call is refused, and everything else is as it is. -/
def Environment.refusing (env : Environment) (function : String) (args : List Float) (output : Nat)
    (error : ModelError) : Environment :=
  { env with
    call := fun f xs k =>
      if f = function ∧ xs = args ∧ k = output then .error error else env.call f xs k }

/-- The evaluation of the expression comes to the call: however that is refused, so is the expression. -/
def Environment.Makes (env : Environment) (e : Expr) (function : String) (args : List Float)
    (output : Nat) : Prop :=
  ∀ error, (env.refusing function args output error).evaluate e = .error error

/-! ### Trees -/

section Trees

variable {known : Expr → Option Float} {call call' : CallSemantics} {whole whole' e : Expr}

/-- A value stays if calls that had values keep them, whatever expression the tree is a part of. -/
theorem treeValue_mono (hcall : ∀ function args output value, call function args output = .ok value →
      call' function args output = .ok value) {value : Float}
    (h : treeValue known call whole e = .ok value) : treeValue known call' whole' e = .ok value := by
  induction e using Expr.children_induction generalizing value with
  | step e ih =>
      cases hknown : known e with
      | some value' =>
          rw [treeValue_of_known hknown] at h ⊢
          exact h
      | none =>
          cases hobstacle : knownObstacle? known whole e with
          | some error =>
              rw [treeValue_of_obstacle hknown hobstacle] at h
              cases h
          | none =>
              have hobstacle' : knownObstacle? known whole' e = none :=
                knownObstacle?_eq_none (.refl e) rfl hobstacle
              rw [treeValue_eq_ok_iff hknown hobstacle] at h
              rw [treeValue_eq_ok_iff hknown hobstacle']
              obtain ⟨values, hvalues, hcombine⟩ := h
              refine ⟨values, ?_, ?_⟩
              · exact forall₂_imp_mem hvalues fun c hc _ _ hvalue => ih c hc hvalue
              · obtain ⟨id, function, args, output, rfl⟩ | hother := Environment.combine_cases e
                · exact hcall function values output value hcombine
                · rw [hother _ { table := {}, call }]
                  exact hcombine

/-- A fault of a function is one of a call in the tree: refusing that call, with whatever error, refuses
    the tree with it. -/
theorem treeValue_fault {name : String} {fault : FunctionFault}
    (h : treeValue known call whole e = .error (.functionFault name fault)) :
    ∃ function args output, call function args output = .error (.functionFault name fault) ∧
      ∀ (call' : CallSemantics) (error : ModelError), call' function args output = .error error →
        (∀ f xs k value, call f xs k = .ok value → call' f xs k = .ok value) →
        treeValue known call' whole e = .error error := by
  induction e using Expr.children_induction with
  | step e ih =>
      cases treeValue_eq_error h with
      | obstacle _ hobstacle =>
          unfold knownObstacle? at hobstacle
          split at hobstacle <;> cases hobstacle
      | child hknown hobstacle hsplit hbefore hc =>
          obtain ⟨function, args, output, hcall, hrefused⟩ := ih _ (by simp [hsplit]) hc
          refine ⟨function, args, output, hcall, fun call' error herror hkept => ?_⟩
          rw [treeValue_of_children {} hknown hobstacle, treeValues_eq_mapM, mapM_eq_error_iff.2
            ⟨_, _, _, hsplit, fun b hb => ?_, hrefused call' error herror hkept⟩]
          · rfl
          · obtain ⟨value, hvalue⟩ := hbefore b hb
            exact ⟨value, treeValue_mono hkept hvalue⟩
      | @call id function args output values _ hknown hvalues hcall =>
          refine ⟨function, values, output, hcall, fun call' error herror hkept => ?_⟩
          rw [treeValue_of_children {} hknown rfl, treeValues_eq_mapM, Expr.children,
            mapM_eq_ok_iff.2 (hvalues.imp fun _ _ => treeValue_mono hkept)]
          exact herror

/-- A tree of whose nodes only symbols are known has a value only if each function that it mentions gives
    one. -/
theorem exists_call_of_treeValue (hsymbols : ∀ n, Expr.Within n e → n.isSymbol = false → known n = none)
    {value : Float} (h : treeValue known call whole e = .ok value) {function : String}
    (hmentions : e.Mentions function) : ∃ args output result, call function args output = .ok result := by
  induction e using Expr.children_induction generalizing value with
  | step e ih =>
      have hknown : known e = none := hsymbols e (.self e) hmentions.isSymbol_eq_false
      obtain ⟨id, args, output, hin⟩ := hmentions
      cases hobstacle : knownObstacle? known whole e with
      | some error =>
          rw [treeValue_of_obstacle hknown hobstacle] at h
          cases h
      | none =>
          obtain ⟨values, hvalues, hcombine⟩ := (treeValue_eq_ok_iff hknown hobstacle).1 h
          cases hin with
          | self => exact ⟨values, output, value, hcombine⟩
          | deeper hc hin =>
              obtain ⟨value', -, hvalue'⟩ := exists_right_of_forall₂ hvalues hc
              exact ih _ hc (fun n hn => hsymbols n (.deeper hc hn)) hvalue' ⟨id, args, output, hin⟩

end Trees

/-! ### Expressions -/

namespace Environment

variable {g : Graph} {env : Environment} {e : Expr}

/-- A fault of a function is one of a call that the evaluation makes. -/
theorem exists_makes (he : e ∈ g) {name : String} {fault : FunctionFault}
    (h : env.evaluate e = .error (.functionFault name fault)) :
    ∃ function args output, env.Makes e function args output ∧
      env.call function args output = .error (.functionFault name fault) := by
  rw [evaluate_eq_treeEvaluate he, treeEvaluate] at h
  cases hfirst : env.table.first? e with
  | some value =>
      rw [hfirst] at h
      cases h
  | none =>
      rw [hfirst] at h
      obtain ⟨function, args, output, hcall, hrefused⟩ := treeValue_fault h
      refine ⟨function, args, output, fun error => ?_, hcall⟩
      rw [evaluate_eq_treeEvaluate he, treeEvaluate, refusing, hfirst]
      refine hrefused _ error (if_pos ⟨rfl, rfl, rfl⟩) fun f xs k value hvalue => ?_
      refine (if_neg ?_).trans hvalue
      rintro ⟨rfl, rfl, rfl⟩
      rw [hcall] at hvalue
      cases hvalue

/-- An evaluation that makes a call fails as the call fails. -/
theorem Makes.evaluate_eq_error {function : String} {args : List Float} {output : Nat}
    (h : env.Makes e function args output) {error : ModelError}
    (hcall : env.call function args output = .error error) : env.evaluate e = .error error := by
  have hsame : env.refusing function args output error = env := by
    refine congrArg (Environment.mk env.table) ?_
    funext f xs k
    split
    · rename_i heq
      rw [heq.1, heq.2.1, heq.2.2, hcall]
    · rfl
  rw [← hsame]
  exact h error

/-- The calls that an evaluation makes stand in the expression. -/
theorem Makes.mentions (he : e ∈ g) {function : String} {args : List Float} {output : Nat}
    (h : env.Makes e function args output) : e.Mentions function := by
  by_contra hmentions
  have hsame (error : ModelError) :
      (env.refusing function args output error).evaluate e = env.evaluate e := by
    rw [evaluate_eq_treeEvaluate he, evaluate_eq_treeEvaluate he, treeEvaluate, treeEvaluate, refusing]
    cases env.table.first? e with
    | some value => rfl
    | none =>
        refine treeValue_congr e (fun _ _ => rfl) fun f hf => ?_
        funext xs k
        refine if_neg fun hcall => hmentions ?_
        rw [← hcall.1]
        exact hf
  have hfault := (hsame (.nonNumeric "")).symm.trans (h (.nonNumeric ""))
  rw [(hsame (.missingValue "")).symm.trans (h (.missingValue ""))] at hfault
  cases hfault

/-- Over a table of symbols an expression has a value only if each function that it mentions gives one. -/
theorem exists_call_eq_ok (he : e ∈ g) (htable : env.table.OnSymbols g) {value : Float}
    (h : env.evaluate e = .ok value) {function : String} (hmentions : e.Mentions function) :
    ∃ args output result, env.call function args output = .ok result := by
  have hunknown (n : Expr) (hn : Expr.Within n e) (hsymbol : n.isSymbol = false) :=
    htable.unknown (Graph.mem_of_within he hn) hsymbol
  rw [evaluate_eq_treeEvaluate he, treeEvaluate] at h
  cases hfirst : env.table.first? e with
  | some known =>
      rw [(hunknown e (.self e) hmentions.isSymbol_eq_false).1] at hfirst
      cases hfirst
  | none =>
      rw [hfirst] at h
      exact exists_call_of_treeValue (fun n hn hsymbol => (hunknown n hn hsymbol).2) h hmentions

end Environment

end FlatDae
