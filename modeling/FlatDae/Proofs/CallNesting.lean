/-
Module: FlatDae.Proofs.CallNesting
Purpose: Calls inside calls. A function that is being called is refused, so that nested calls are calls of
  different functions of the table and there is never a call inside more calls than the table has
  functions: an evaluator that has room for that many nested calls, and looks every function up in the
  whole table, never needs more.
Main exports: FunctionTable.callInside, FunctionTable.insideCall, FunctionTable.CallFails,
  FunctionTable.callFails, FunctionTable.CallFails.callInside_eq, FunctionTable.callInside_eq_ok_iff,
  FunctionTable.Active, FunctionTable.Active.length_le, FunctionTable.callNested,
  FunctionTable.callNested_eq
-/
import FlatDae.Proofs.TableAgreement
import Mathlib.Data.Finset.Card

namespace FlatDae

namespace FunctionTable

/-- One of the outputs that a call of a function gives. -/
def selectOutput (name : String) (output : Nat) (outputs : List Float) : Except ModelError Float :=
  match outputs[output]? with
  | some value => .ok value
  | none => .error (.functionFault name (.noOutput output))

/-! ### Inside calls -/

/-- The functions that can still be entered while some are active, the innermost first. -/
def enterable (functions : FunctionTable) (active : List String) : FunctionTable :=
  active.foldr (fun name table => table.erase name) functions

/-- What calls mean while functions are active, the innermost first. -/
def callInside (functions : FunctionTable) (active : List String) : CallSemantics :=
  (functions.enterable active).call active

/-- What the outputs of a function are evaluated over, with its own name the first of the active ones. -/
def insideCall (functions : FunctionTable) (active : List String) (f : ModelFunction) (args : List Float) :
    Environment where
  table := .ofRows (f.inputs.zip args)
  call := functions.callInside active

variable {functions : FunctionTable} {active : List String} {name : String} {f : ModelFunction}

/-- A table of arguments has the inputs as its nodes. -/
theorem nodes_args {inputs : List Expr} {args : List Float} (h : args.length = inputs.length) :
    (ParameterTable.ofRows (inputs.zip args)).nodes = inputs := by
  rw [ParameterTable.nodes, ParameterTable.ofRows, List.toList_toArray, List.map_fst_zip h.ge]

/-- A function that is not active can be entered. -/
theorem getElem?_enterable (h : name ∉ active) : (functions.enterable active)[name]? = functions[name]? := by
  induction active with
  | nil => rfl
  | cons first active ih =>
      rw [List.mem_cons, not_or] at h
      rw [enterable, List.foldr_cons, Std.TreeMap.getElem?_erase, if_neg]
      · exact ih h.2
      · exact fun heq => h.1 (Std.LawfulEqCmp.eq_of_compare heq).symm

theorem callInside_of_active (h : name ∈ active) (args : List Float) (output : Nat) :
    functions.callInside active name args output = .error (.functionFault name .recursiveCall) := by
  rw [callInside, call, callWith.eq_def, if_pos (List.contains_iff_mem.2 h)]

theorem callInside_of_missing (hactive : name ∉ active) (hmissing : functions[name]? = none)
    (args : List Float) (output : Nat) :
    functions.callInside active name args output = .error (.functionFault name .notInModel) := by
  rw [callInside, call, callWith.eq_def, if_neg (by simpa using hactive)]
  split
  · rfl
  · rename_i hfound
    rw [getElem?_enterable hactive, hmissing] at hfound
    cases hfound

/-- A function that is not active is applied, and is active inside. -/
theorem callInside_of_found (hactive : name ∉ active) (hfound : functions[name]? = some f)
    (args : List Float) (output : Nat) :
    functions.callInside active name args output =
      (f.apply (functions.callInside (name :: active)) args).bind (selectOutput name output) :=
  callWith_of_found (by simpa using hactive) ((getElem?_enterable hactive).trans hfound) args output

variable (functions active) in
/-- Why a call has no value: the function is active or not there, it has other than that many inputs, the
    first output without a value has none inside, or all have and there is no such output. -/
inductive CallFails (name : String) (args : List Float) (output : Nat) : ModelError → Prop where
  | recursiveCall (hactive : name ∈ active) :
      CallFails name args output (.functionFault name .recursiveCall)
  | notInModel (hactive : name ∉ active) (hmissing : functions[name]? = none) :
      CallFails name args output (.functionFault name .notInModel)
  | wrongArity {f : ModelFunction} (hactive : name ∉ active) (hfound : functions[name]? = some f)
      (hargs : args.length ≠ f.inputs.length) :
      CallFails name args output (.functionFault f.name (.wrongArity f.inputs.length args.length))
  | inside {f : ModelFunction} {before after : List Expr} {o : Expr} {error : ModelError}
      (hactive : name ∉ active) (hfound : functions[name]? = some f)
      (hargs : args.length = f.inputs.length) (houtputs : f.outputs = before ++ o :: after)
      (hbefore : ∀ b ∈ before, ∃ value,
        (functions.insideCall (name :: active) f args).evaluate b = .ok value)
      (ho : (functions.insideCall (name :: active) f args).evaluate o = .error error) :
      CallFails name args output error
  | noOutput {f : ModelFunction} {values : List Float} (hactive : name ∉ active)
      (hfound : functions[name]? = some f) (hargs : args.length = f.inputs.length)
      (hvalues : List.Forall₂ (fun o value =>
        (functions.insideCall (name :: active) f args).evaluate o = .ok value) f.outputs values)
      (houtput : f.outputs.length ≤ output) :
      CallFails name args output (.functionFault name (.noOutput output))

/-- A call of a function that is not active, with an argument for every input, selects one of the values
    that the outputs have inside. -/
theorem callInside_of_args (hactive : name ∉ active) (hfound : functions[name]? = some f)
    {args : List Float} (hargs : args.length = f.inputs.length) (output : Nat) :
    functions.callInside active name args output =
      (f.outputs.mapM (functions.insideCall (name :: active) f args).evaluate).bind
        (selectOutput name output) := by
  rw [callInside_of_found hactive hfound, ModelFunction.apply, ModelFunction.applyWith,
    if_neg (by simpa using hargs)]
  rfl

theorem callFails {args : List Float} {output : Nat} {error : ModelError}
    (h : functions.callInside active name args output = .error error) :
    functions.CallFails active name args output error := by
  by_cases hactive : name ∈ active
  · rw [callInside_of_active hactive] at h
    obtain rfl := Except.error.inj h
    exact .recursiveCall hactive
  cases hfound : functions[name]? with
  | none =>
      rw [callInside_of_missing hactive hfound] at h
      obtain rfl := Except.error.inj h
      exact .notInModel hactive hfound
  | some f =>
      by_cases hargs : args.length = f.inputs.length
      · rw [callInside_of_args hactive hfound hargs] at h
        cases houtputs : f.outputs.mapM (functions.insideCall (name :: active) f args).evaluate with
        | error error' =>
            rw [houtputs] at h
            obtain rfl := Except.error.inj h
            obtain ⟨before, o, after, hsplit, hbefore, ho⟩ := mapM_eq_error_iff.1 houtputs
            exact .inside hactive hfound hargs hsplit hbefore ho
        | ok values =>
            have hvalues := mapM_eq_ok_iff.1 houtputs
            simp only [houtputs, Except.bind, selectOutput] at h
            split at h
            · cases h
            · rename_i hnone
              obtain rfl := Except.error.inj h
              exact .noOutput hactive hfound hargs hvalues
                (hvalues.length_eq ▸ List.getElem?_eq_none_iff.1 hnone)
      · rw [callInside_of_found hactive hfound, ModelFunction.apply, ModelFunction.applyWith,
          if_pos (by simpa using hargs)] at h
        obtain rfl := Except.error.inj h
        exact .wrongArity hactive hfound hargs

/-- And for each of these reasons it has none. -/
theorem CallFails.callInside_eq {args : List Float} {output : Nat} {error : ModelError}
    (h : functions.CallFails active name args output error) :
    functions.callInside active name args output = .error error := by
  cases h with
  | recursiveCall hactive => exact callInside_of_active hactive args output
  | notInModel hactive hmissing => exact callInside_of_missing hactive hmissing args output
  | wrongArity hactive hfound hargs =>
      rw [callInside_of_found hactive hfound, ModelFunction.apply, ModelFunction.applyWith,
        if_pos (by simpa using hargs)]
      rfl
  | inside hactive hfound hargs houtputs hbefore ho =>
      rw [callInside_of_args hactive hfound hargs,
        mapM_eq_error_iff.2 ⟨_, _, _, houtputs, hbefore, ho⟩]
      rfl
  | noOutput hactive hfound hargs hvalues houtput =>
      rw [callInside_of_args hactive hfound hargs, mapM_eq_ok_iff.2 hvalues]
      simp only [Except.bind, selectOutput]
      rw [List.getElem?_eq_none_iff.2 (hvalues.length_eq ▸ houtput)]

/-- A call with a value is one of a function that is there and not active, over a value for each of its
    inputs; the value is that of the output inside. -/
theorem callInside_eq_ok_iff {name : String} {args : List Float} {output : Nat} {value : Float} :
    functions.callInside active name args output = .ok value ↔
      name ∉ active ∧ ∃ f results, functions[name]? = some f ∧ args.length = f.inputs.length ∧
        List.Forall₂ (fun o result =>
          (functions.insideCall (name :: active) f args).evaluate o = .ok result) f.outputs results ∧
        results[output]? = some value := by
  constructor
  · intro h
    have hactive : name ∉ active := by
      intro hactive
      rw [callInside_of_active hactive] at h
      cases h
    cases hfound : functions[name]? with
    | none =>
        rw [callInside_of_missing hactive hfound] at h
        cases h
    | some f =>
        have harity : args.length = f.inputs.length := by
          by_contra hargs
          rw [CallFails.callInside_eq (.wrongArity hactive hfound hargs)] at h
          cases h
        rw [callInside_of_args hactive hfound harity] at h
        cases hresults : f.outputs.mapM (functions.insideCall (name :: active) f args).evaluate with
        | error error =>
            rw [hresults] at h
            cases h
        | ok results =>
            refine ⟨hactive, f, results, rfl, harity, mapM_eq_ok_iff.1 hresults, ?_⟩
            simp only [hresults, Except.bind, selectOutput] at h
            split at h
            · rename_i hselected
              rw [hselected, Except.ok.inj h]
            · cases h
  · rintro ⟨hactive, f, results, hfound, harity, hresults, hselected⟩
    rw [callInside_of_args hactive hfound harity, mapM_eq_ok_iff.2 hresults]
    simp only [Except.bind, selectOutput, hselected]

/-- A call has a value only if the function is not active, and each of its outputs has a value inside. -/
theorem callInside_eq_ok {args : List Float} {output : Nat} {value : Float}
    (h : functions.callInside active name args output = .ok value) :
    name ∉ active ∧ ∃ f, functions[name]? = some f ∧
      ∀ o ∈ f.outputs, ∃ result, (functions.insideCall (name :: active) f args).evaluate o = .ok result := by
  obtain ⟨hactive, f, results, hfound, -, hresults, -⟩ := callInside_eq_ok_iff.1 h
  refine ⟨hactive, f, hfound, fun o ho => ?_⟩
  obtain ⟨result, -, hresult⟩ := exists_right_of_forall₂ hresults ho
  exact ⟨result, hresult⟩

/-! ### Room for calls -/

/-- Functions that are active: functions of the table, none of them twice. -/
structure Active (functions : FunctionTable) (active : List String) : Prop where
  nodup : active.Nodup
  found : ∀ name ∈ active, ∃ f, functions[name]? = some f

theorem active_nil : functions.Active [] where
  nodup := List.nodup_nil
  found := fun _ hname => absurd hname List.not_mem_nil

theorem Active.cons (h : functions.Active active) (hactive : name ∉ active)
    (hfound : functions[name]? = some f) : functions.Active (name :: active) where
  nodup := List.nodup_cons.2 ⟨hactive, h.nodup⟩
  found := List.forall_mem_cons.2 ⟨⟨f, hfound⟩, h.found⟩

/-- No more functions are active than there are. -/
theorem Active.length_le (h : functions.Active active) : active.length ≤ functions.size := by
  have hkeys : active.toFinset ⊆ functions.keys.toFinset := by
    intro name hname
    obtain ⟨f, hf⟩ := h.found name (List.mem_toFinset.1 hname)
    rw [List.mem_toFinset, Std.TreeMap.mem_keys, Std.TreeMap.mem_iff_isSome_getElem?, hf]
    rfl
  calc active.length = active.toFinset.card := (List.toFinset_card_of_nodup h.nodup).symm
    _ ≤ functions.keys.toFinset.card := Finset.card_le_card hkeys
    _ ≤ functions.keys.length := List.toFinset_card_le _
    _ = functions.size := Std.TreeMap.length_keys

/-- What calls mean while functions are active and there is `room` for that many more calls inside each
    other. Every function is looked up in the whole table, and a call for which there is no room is left
    to `beyond`. -/
def callNested (functions : FunctionTable) (beyond : CallSemantics) (room : Nat) (active : List String) :
    CallSemantics :=
  fun name args output =>
    if active.contains name then .error (.functionFault name .recursiveCall)
    else
      match functions[name]? with
      | none => .error (.functionFault name .notInModel)
      | some f =>
        match room with
        | 0 => beyond name args output
        | room + 1 =>
          (f.apply (callNested functions beyond room (name :: active)) args).bind
            (selectOutput name output)

/-- With room for the functions that are not active there is never a call without room. -/
theorem callNested_eq (beyond : CallSemantics) {room : Nat} (hactive : functions.Active active)
    (hroom : functions.size ≤ active.length + room) :
    functions.callNested beyond room active = functions.callInside active := by
  induction room generalizing active with
  | zero =>
      funext name args output
      rw [callNested]
      by_cases hname : name ∈ active
      · rw [if_pos (List.contains_iff_mem.2 hname), callInside_of_active hname]
      rw [if_neg (by simpa using hname)]
      cases hfound : functions[name]? with
      | none => rw [callInside_of_missing hname hfound]
      | some f =>
          have hlength := (hactive.cons hname hfound).length_le
          rw [List.length_cons] at hlength
          omega
  | succ room ih =>
      funext name args output
      rw [callNested]
      by_cases hname : name ∈ active
      · rw [if_pos (List.contains_iff_mem.2 hname), callInside_of_active hname]
      rw [if_neg (by simpa using hname)]
      cases hfound : functions[name]? with
      | none => rw [callInside_of_missing hname hfound]
      | some f =>
          rw [callInside_of_found hname hfound]
          simp only
          rw [ih (hactive.cons hname hfound) (by rw [List.length_cons]; omega)]

end FunctionTable

end FlatDae
