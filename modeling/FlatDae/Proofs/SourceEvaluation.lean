/-
Module: FlatDae.Proofs.SourceEvaluation
Purpose: What the expressions of a text are worth as they are written. The value follows the syntax tree:
  names have the numbers that are assigned to them, operators and built-in functions compute what tables
  have under their spelling, and a call of a declared function evaluates all its outputs over the argument
  values, in which its parameters alone mean something. The operators of the program agree with the tables,
  so a graph that says what an expression says has the same value, or fails for the same reason.
Main exports: EvaluationFault, Source.operation?, Source.builtin?, Source.Expression.value,
  Source.callDeclared, Source.operation?_spelling, ParameterTable.Assigns, Source.Implements,
  Source.treeEvaluate_eq_value, Source.callWith_eq_callDeclared
-/
import FlatDae.Proofs.DeclarationTranslation
import FlatDae.Proofs.FallibleLists
import FlatDae.Proofs.TableAgreement

namespace FlatDae

open FlatDae.Expr (Graph)

/-! ### Values of a text -/

/-- For what reason an expression has no value, apart from the texts of expressions. -/
inductive EvaluationFault where
  | unresolved (name : String)
  | nonNumeric
  | function (name : String) (fault : FunctionFault)
  /-- The model is at fault; no expression fails for this reason. -/
  | configuration
deriving DecidableEq, Repr

/-- The reason of an error. -/
def ModelError.fault : ModelError → EvaluationFault
  | .unresolved symbol _ => .unresolved symbol
  | .nonNumeric _ => .nonNumeric
  | .functionFault name fault => .function name fault
  | _ => .configuration

namespace Source

/-- What a call of a named function gives for one of its outputs. -/
abbrev CallValues := String → List Float → Nat → Except EvaluationFault Float

/-! ### What is spelled

Truth values are the numbers one and zero, and every number but zero counts as true. The tables say what
each spelling computes without regard to the operators that the program makes of it. -/

/-- What a sign before an operand computes, by its spelling. -/
def signed? : String → Option (Float → Float)
  | "-" => some fun x => -x
  | "+" => some fun x => x
  | "not" => some fun x => if x == 0.0 then 1.0 else 0.0
  | _ => none

/-- What an operator between two operands computes, by its spelling. -/
def operation? : String → Option (Float → Float → Float)
  | "+" => some fun x y => x + y
  | "-" => some fun x y => x - y
  | "*" => some fun x y => x * y
  | "/" => some fun x y => x / y
  | "^" => some fun x y => x.pow y
  | "==" => some fun x y => if x == y then 1.0 else 0.0
  | "<>" => some fun x y => if x == y then 0.0 else 1.0
  | "<" => some fun x y => if x < y then 1.0 else 0.0
  | "<=" => some fun x y => if x ≤ y then 1.0 else 0.0
  | ">" => some fun x y => if x > y then 1.0 else 0.0
  | ">=" => some fun x y => if x ≥ y then 1.0 else 0.0
  | "and" => some fun x y => if x == 0.0 || y == 0.0 then 0.0 else 1.0
  | "or" => some fun x y => if x == 0.0 && y == 0.0 then 0.0 else 1.0
  | _ => none

/-- The built-in function of a name. -/
def builtin? : String → Option (Float → Float)
  | "sin" => some Float.sin
  | "cos" => some Float.cos
  | "tan" => some Float.tan
  | "exp" => some Float.exp
  | "log" => some Float.log
  | "sqrt" => some Float.sqrt
  | "abs" => some Float.abs
  | _ => none

/-- What stands in a table, as all spellings of operators do. -/
def spelled {α : Type} : Option α → Except EvaluationFault α
  | some computed => .ok computed
  | none => .error .configuration

mutual

/-- The value of an expression as it is written, with numbers for its names. A derivative has none,
    whatever its argument is. Without an output index a call is one of the first output. -/
def Expression.value (names : String → Option Float) (call : CallValues) :
    Expression → Except EvaluationFault Float
  | .number _ value => .ok value
  | .truth _ true => .ok 1.0
  | .truth _ false => .ok 0.0
  | .name _ name =>
    match names name with
    | some value => .ok value
    | none => .error (.unresolved name)
  | .signed _ sign operand => do
    let compute ← spelled (signed? sign.spelling)
    return compute (← operand.value names call)
  | .binary _ op left right => do
    let compute ← spelled (operation? (spelling op))
    let x ← left.value names call
    let y ← right.value names call
    return compute x y
  | .call _ function args output =>
    if function = "der" then .error .nonNumeric
    else do
      let xs ← valuesOf names call args
      match builtin? function, xs with
      | some compute, [x] => return compute x
      | some _, xs => .error (.function function (.wrongArity 1 xs.length))
      | none, xs => call function xs (output.getD 0)

/-- The values of expressions from left to right. -/
def valuesOf (names : String → Option Float) (call : CallValues) :
    List Expression → Except EvaluationFault (List Float)
  | [] => .ok []
  | e :: es => do
    let x ← e.value names call
    let xs ← valuesOf names call es
    return x :: xs

end

/-- The arguments as the values of the parameters. -/
def assigned (params : List String) (args : List Float) (name : String) : Option Float :=
  ((params.zip args).find? (·.1 = name)).map Prod.snd

/-- A function that is entered is one less to enter. -/
theorem countP_inactive_lt {functions : List FunctionDeclaration} {active : List String}
    {function : String} {d : FunctionDeclaration} (hactive : function ∉ active)
    (hfound : functions.find? (·.name = function) = some d) :
    functions.countP (·.name ∉ function :: active) < functions.countP (·.name ∉ active) := by
  have hname : d.name = function := by simpa using List.find?_some hfound
  have hsplit : functions.filter (·.name ∉ function :: active) =
      (functions.filter (·.name ∉ active)).filter (·.name ≠ function) := by
    rw [List.filter_filter]
    congr 1
    funext d
    simp
  rw [List.countP_eq_length_filter, List.countP_eq_length_filter, hsplit,
    List.length_filter_lt_length_iff_exists]
  refine ⟨d, List.mem_filter.2 ⟨List.mem_of_find?_eq_some hfound, ?_⟩, ?_⟩
  · simpa [hname] using hactive
  · simp [hname]

/-- A call of a declared function while the functions `active` are being called: all outputs are
    evaluated over the argument values, and one of them is the result. An active function is refused. -/
def callDeclared (functions : List FunctionDeclaration) (active : List String) (function : String)
    (args : List Float) (output : Nat) : Except EvaluationFault Float :=
  if _hactive : function ∈ active then .error (.function function .recursiveCall)
  else
    match _hfound : functions.find? (·.name = function) with
    | none => .error (.function function .notInModel)
    | some d =>
      if args.length ≠ d.params.length then
        .error (.function function (.wrongArity d.params.length args.length))
      else
        let inner : CallValues := fun g xs k => callDeclared functions (function :: active) g xs k
        match d.outputs.mapM (Expression.value (assigned d.params args) inner) with
        | .error fault => .error fault
        | .ok values =>
          match values[output]? with
          | some value => .ok value
          | none => .error (.function function (.noOutput output))
termination_by functions.countP (·.name ∉ active)
decreasing_by exact countP_inactive_lt _hactive _hfound

end Source

/-! ### The operators of the program -/

theorem truthValue_decide (p : Prop) [Decidable p] : truthValue (decide p) = if p then 1.0 else 0.0 := by
  by_cases h : p <;> simp [truthValue, h]

theorem truthValue_not (b : Bool) : truthValue (!b) = if b then 0.0 else 1.0 := by cases b <;> rfl

namespace Source

/-- An operator computes what its spelling says. -/
theorem operation?_spelling (op : BinaryOp) : operation? (spelling op) = some op.apply := by
  cases op with
  | add | sub | mul | div | pow | eq => rfl
  | ne => exact congrArg some (funext₂ fun x y => (truthValue_not (x == y)).symm)
  | lt | le | gt | ge => exact congrArg some (funext₂ fun x y => (truthValue_decide _).symm)
  | and =>
      refine congrArg some (funext₂ fun x y => (truthValue_not (x == 0.0 || y == 0.0)).symm.trans ?_)
      rw [Bool.not_or]
      rfl
  | or =>
      refine congrArg some (funext₂ fun x y => (truthValue_not (x == 0.0 && y == 0.0)).symm.trans ?_)
      rw [Bool.not_and]
      rfl

/-- A built-in function computes what its name says. -/
theorem builtin?_eq (name : String) : builtin? name = (UnaryOp.ofName? name).map UnaryOp.apply := by
  unfold builtin? UnaryOp.ofName?
  split <;> simp_all <;> rfl

end Source

/-! ### Values of trees -/

/-- The table has the numbers that are assigned to names, at the symbols that the names mean, and no
    others. -/
structure ParameterTable.Assigns (table : ParameterTable) (means : String → Expr → Prop)
    (names : String → Option Float) : Prop where
  distinct : table.Distinct
  keys : ∀ key ∈ table.nodes, ∃ name, means name key
  value : ∀ name symbol, means name symbol → table.first? symbol = names name

/-- What succeeds and is only then changed fails for the same reason. -/
theorem mapError_map {α β ε ε' : Type} (k : ε → ε') (f : α → β) (x : Except ε α) :
    (do return f (← x)).mapError k = (do return f (← x.mapError k)) := by
  cases x <;> rfl

namespace Source

section Trees

variable {means : String → Expr → Prop} {known : Expr → Option Float} {call : CallSemantics}
  {names : String → Option Float} {calls : CallValues} {whole : Expr}

/-- Lists of trees have the values of the expressions they say, if each of them has. -/
theorem mapError_treeValues {es : List Expression} {xs : List Expr}
    (h : List.Forall₂ (fun e x => (treeValue known call whole x).mapError ModelError.fault =
      e.value names calls) es xs) :
    (treeValues known call whole xs).mapError ModelError.fault = valuesOf names calls es := by
  induction h with
  | nil => rfl
  | @cons e x es xs hfirst _ ih =>
      rw [treeValues, valuesOf, ← hfirst, ← ih]
      cases treeValue known call whole x with
      | error error => rfl
      | ok value => cases treeValues known call whole xs <;> rfl

/-- A tree that says what an expression says has the same value, or fails for the same reason. -/
theorem Expression.TranslatesTo.value_eq {e : Expression} {x : Expr} (h : e.TranslatesTo means x)
    (hsymbol : ∀ name symbol, means name symbol → ∃ id, symbol = .symbol id name)
    (hknown : ∀ name symbol, means name symbol → known symbol = names name)
    (hother : ∀ n, Expr.Within n x → n.isSymbol = false → known n = none)
    (hcall : ∀ function args output,
      (call function args output).mapError ModelError.fault = calls function args output) :
    (treeValue known call whole x).mapError ModelError.fault = e.value names calls := by
  have hbelow {n c : Expr} (hc : c ∈ n.children)
      (hn : ∀ n', Expr.Within n' n → n'.isSymbol = false → known n' = none) :
      ∀ n', Expr.Within n' c → n'.isSymbol = false → known n' = none :=
    fun n' hn' => hn n' (hn'.trans (.child hc))
  induction h with
  | number start id value =>
      rw [treeValue.eq_def, hother _ (.self _) rfl, Expression.value]
      rfl
  | truth start id value =>
      rw [treeValue.eq_def, hother _ (.self _) rfl]
      cases value <;> rfl
  | @name start name symbol hname =>
      obtain ⟨id, rfl⟩ := hsymbol _ _ hname
      rw [treeValue.eq_def, hknown _ _ hname, Expression.value]
      cases names name <;> rfl
  | minus start id _ ih =>
      rw [treeValue.eq_def, hother _ (.self _) rfl, Expression.value,
        ← ih (hbelow List.mem_cons_self hother)]
      exact mapError_map _ _ _
  | @plus start operand child _ ih =>
      rw [Expression.value, ← ih hother]
      cases treeValue known call whole child <;> rfl
  | not start id _ ih =>
      rw [treeValue.eq_def, hother _ (.self _) rfl, Expression.value,
        ← ih (hbelow List.mem_cons_self hother)]
      exact mapError_map _ _ _
  | @binary start id op left right x y _ _ ihleft ihright =>
      rw [treeValue.eq_def, hother _ (.self _) rfl, Expression.value, operation?_spelling,
        ← ihleft (hbelow List.mem_cons_self hother),
        ← ihright (hbelow (List.mem_cons_of_mem _ List.mem_cons_self) hother)]
      dsimp only
      cases treeValue known call whole x with
      | error => rfl
      | ok => cases treeValue known call whole y <;> rfl
  | derivative start id _ _ =>
      rw [treeValue.eq_def, hother _ (.self _) rfl, Expression.value]
      rfl
  | @builtin start id function op arg child hop _ ih =>
      have hder : function ≠ "der" := by
        rintro rfl
        cases hop
      rw [treeValue.eq_def, hother _ (.self _) rfl, Expression.value, if_neg hder, valuesOf, valuesOf,
        ← ih (hbelow List.mem_cons_self hother), builtin?_eq, hop, Option.map_some]
      dsimp only
      cases treeValue known call whole child <;> rfl
  | @declared start id function args children output hbuiltin hlength _ ih =>
      have hder : function ≠ "der" := fun heq => hbuiltin (Or.inl heq)
      have hop : UnaryOp.ofName? function = none := by
        rw [← Option.not_isSome_iff_eq_none]
        exact fun hsome => hbuiltin (Or.inr hsome)
      have hargs := mapError_treeValues (List.forall₂_iff_zip.2 ⟨hlength, fun {arg child} hmem =>
        ih hmem (hbelow (n := .call id function children (output.getD 0)) (List.of_mem_zip hmem).2
          hother)⟩)
      rw [treeValue.eq_def, hother _ (.self _) rfl, Expression.value, if_neg hder, ← hargs, builtin?_eq,
        hop, Option.map_none]
      dsimp only
      cases treeValues known call whole children with
      | error => rfl
      | ok values => exact hcall function values (output.getD 0)

end Trees

/-- What names mean is made of symbols of the graph. -/
structure Symbolic (g : Graph) (means : String → Expr → Prop) : Prop where
  symbol : ∀ name symbol, means name symbol → ∃ id, symbol = .symbol id name
  mem : ∀ name symbol, means name symbol → symbol ∈ g

/-- A node of a graph that says what an expression says is evaluated to its value, over a table of the
    numbers that are assigned to names. -/
theorem treeEvaluate_eq_value {means : String → Expr → Prop} {g : Graph} (hmeans : Symbolic g means)
    {table : ParameterTable} {names : String → Option Float} (htable : table.Assigns means names)
    {call : CallSemantics} {calls : CallValues}
    (hcall : ∀ function args output,
      (call function args output).mapError ModelError.fault = calls function args output)
    {e : Expression} {x : Expr} (hx : x ∈ g) (h : e.TranslatesTo means x) :
    (({ table, call } : Environment).treeEvaluate x).mapError ModelError.fault = e.value names calls := by
  have hkeyed : table.KeyedBySymbols g := by
    refine ⟨fun key hkey => ?_, htable.distinct⟩
    obtain ⟨name, hname⟩ := htable.keys key hkey
    obtain ⟨id, rfl⟩ := hmeans.symbol name key hname
    exact ⟨hmeans.mem name _ hname, rfl⟩
  rw [Environment.treeEvaluate_of_distinct htable.distinct]
  exact h.value_eq hmeans.symbol htable.value
    (fun n hn hsymbol => hkeyed.first?_eq_none (Graph.mem_of_within hx hn) hsymbol) hcall

/-! ### Calls -/

/-- The functions that can be entered are those that are declared and not active, and each is what its
    declaration says. -/
structure Implements (functions : List FunctionDeclaration) (g : Graph) (active : List String)
    (table : FunctionTable) : Prop where
  missing : ∀ name ∉ active, functions.find? (·.name = name) = none → table[name]? = none
  found : ∀ name ∉ active, ∀ d, functions.find? (·.name = name) = some d →
    ∃ f, table[name]? = some f ∧ d.TranslatesTo f ∧ d.params.Nodup ∧ (∀ input ∈ f.inputs, input ∈ g) ∧
      ∀ output ∈ f.outputs, output ∈ g

/-- One function less can be entered. -/
theorem Implements.erase {functions : List FunctionDeclaration} {g : Graph} {active : List String}
    {table : FunctionTable} (h : Implements functions g active table) (name : String) :
    Implements functions g (name :: active) (table.erase name) := by
  have hlookup {other : String} (hother : other ∉ name :: active) :
      (table.erase name)[other]? = table[other]? := by
    rw [Std.TreeMap.getElem?_erase, if_neg]
    intro heq
    exact hother (Std.LawfulEqCmp.eq_of_compare heq ▸ List.mem_cons_self)
  constructor
  · intro other hother hnone
    rw [hlookup hother]
    exact h.missing other (fun hmem => hother (List.mem_cons_of_mem _ hmem)) hnone
  · intro other hother d hd
    rw [hlookup hother]
    exact h.found other (fun hmem => hother (List.mem_cons_of_mem _ hmem)) d hd

/-- What the parameters mean is made of the inputs. -/
theorem FunctionDeclaration.TranslatesTo.symbolic {d : FunctionDeclaration} {f : ModelFunction}
    (h : d.TranslatesTo f) {g : Graph} (hinputs : ∀ input ∈ f.inputs, input ∈ g) :
    Symbolic g (d.Means f) where
  symbol := fun _ _ hmeans => (List.forall₂_iff_zip.1 h.inputs).2 hmeans
  mem := fun _ _ hmeans => hinputs _ (h.means_iff.1 hmeans).1

/-- The table of a call assigns the arguments to the parameters. -/
theorem assigns_args {d : FunctionDeclaration} {f : ModelFunction} (h : d.TranslatesTo f)
    (hparams : d.params.Nodup) {g : Graph} (hinputs : ∀ input ∈ f.inputs, input ∈ g) {args : List Float}
    (hlength : args.length = f.inputs.length) :
    (ParameterTable.ofRows (f.inputs.zip args)).Assigns (d.Means f) (assigned d.params args) := by
  have hnodes : (ParameterTable.ofRows (f.inputs.zip args)).nodes = f.inputs := by
    simp [ParameterTable.nodes, ParameterTable.ofRows, List.map_fst_zip, hlength]
  have hdistinct : (ParameterTable.ofRows (f.inputs.zip args)).Distinct := by
    rw [ParameterTable.Distinct, hnodes]
    have hprints : (f.inputs.map Expr.print).Nodup := h.print_inputs ▸ hparams
    exact List.Nodup.map_on (fun x hx y hy hid => Graph.eq_of_id_eq (hinputs x hx) (hinputs y hy) hid)
      (List.Nodup.of_map _ hprints)
  refine ⟨hdistinct, fun key hkey => ⟨key.print, h.means_iff.2 ⟨hnodes ▸ hkey, rfl⟩⟩, ?_⟩
  intro name symbol hmeans
  obtain ⟨hinput, rfl⟩ := h.means_iff.1 hmeans
  obtain ⟨i, hi, rfl⟩ := List.mem_iff_getElem.1 hinput
  have hrow : (f.inputs[i], args[i]) ∈ f.inputs.zip args := by
    rw [List.mem_iff_getElem]
    exact ⟨i, by simpa [hlength] using hi, List.getElem_zip⟩
  have harg : (f.inputs[i].print, args[i]) ∈ d.params.zip args := by
    rw [← h.print_inputs, List.zip_map_left, List.mem_map]
    exact ⟨_, hrow, rfl⟩
  have hkeys : ((d.params.zip args).map Prod.fst).Nodup := by
    rw [List.map_fst_zip]
    · exact hparams
    · rw [hlength, h.inputs.length_eq]
  rw [ParameterTable.first?_of_mem hdistinct hrow, assigned, find?_eq_some_of_nodup Prod.fst hkeys harg]
  rfl

/-- Outputs that say what expressions say have their values, if each of them has. -/
theorem mapError_mapM {es : List Expression} {xs : List Expr} {evaluate : Expr → Except ModelError Float}
    {value : Expression → Except EvaluationFault Float}
    (h : List.Forall₂ (fun e x => (evaluate x).mapError ModelError.fault = value e) es xs) :
    (xs.mapM evaluate).mapError ModelError.fault = es.mapM value := by
  induction h with
  | nil => rfl
  | @cons e x es xs hfirst _ ih =>
      rw [List.mapM_cons, List.mapM_cons, ← hfirst, ← ih]
      cases evaluate x with
      | error error => rfl
      | ok value => cases xs.mapM evaluate <;> rfl

/-- Applying a function to arguments gives the values of the declared outputs over them. -/
theorem mapError_outputs {d : FunctionDeclaration} {f : ModelFunction} (h : d.TranslatesTo f)
    (hparams : d.params.Nodup) {g : Graph} (hinputs : ∀ input ∈ f.inputs, input ∈ g)
    (houtputs : ∀ output ∈ f.outputs, output ∈ g) {args : List Float}
    (hlength : args.length = f.inputs.length) {call : CallSemantics} {calls : CallValues}
    (hcall : ∀ function args output,
      (call function args output).mapError ModelError.fault = calls function args output) :
    (f.outputs.mapM ({ table := .ofRows (f.inputs.zip args), call } : Environment).treeEvaluate).mapError
      ModelError.fault = d.outputs.mapM (Expression.value (assigned d.params args) calls) :=
  mapError_mapM (List.forall₂_iff_zip.2 ⟨h.outputs.length_eq, fun {_ x} hmem =>
    treeEvaluate_eq_value (h.symbolic hinputs) (assigns_args h hparams hinputs hlength) hcall
      (houtputs x (List.of_mem_zip hmem).2) ((List.forall₂_iff_zip.1 h.outputs).2 hmem)⟩)

/-- A call in the model has the value of the declared call, or fails for the same reason. -/
theorem callWith_eq_callDeclared {functions : List FunctionDeclaration} {g : Graph} {active : List String}
    {table : FunctionTable} (h : Implements functions g active table) (function : String)
    (args : List Float) (output : Nat) :
    (table.callWith Environment.treeEvaluate active function args output).mapError ModelError.fault =
      callDeclared functions active function args output := by
  induction hsize : table.size using Nat.strongRecOn generalizing table active function args output with
  | ind size ih =>
      rw [callDeclared]
      by_cases hactive : function ∈ active
      · rw [dif_pos hactive, FunctionTable.callWith.eq_def, if_pos (by simpa using hactive)]
        rfl
      rw [dif_neg hactive]
      split
      · rename_i hnone
        have htable := h.missing function hactive hnone
        rw [FunctionTable.callWith.eq_def, if_neg (by simpa using hactive)]
        split
        · rfl
        · rename_i f hf
          rw [htable] at hf
          cases hf
      · rename_i d hd
        obtain ⟨f, hf, htranslates, hparams, hinputs, houtputs⟩ := h.found function hactive d hd
        have hname : f.name = function := by
          rw [htranslates.name]
          simpa using List.find?_some hd
        have hinner (g : String) (xs : List Float) (k : Nat) :=
          ih (table.erase function).size (hsize ▸ FunctionTable.size_erase_lt hf) (h.erase function) g xs k
            rfl
        rw [FunctionTable.callWith_of_found (by simpa using hactive) hf, ModelFunction.applyWith,
          htranslates.inputs.length_eq, hname]
        by_cases hargs : args.length = f.inputs.length
        · rw [if_neg (by simpa using hargs), if_neg (by simpa using hargs)]
          dsimp only
          rw [← mapError_outputs htranslates hparams hinputs houtputs hargs hinner]
          cases f.outputs.mapM (Environment.treeEvaluate _) with
          | error error => rfl
          | ok values =>
              simp only [Except.bind, Except.mapError]
              cases values[output]? <;> rfl
        · rw [if_pos (by simpa using hargs), if_pos (by simpa using hargs)]
          rfl

end Source

end FlatDae
