/-
Module: FlatDae.ModelFunction
Purpose: Functions of a model: named inputs, and an expression over them for every output. A call
  evaluates all outputs over the argument values. A function that is being called may not be called
  again from inside its own call; leaving it out of the functions that can still be entered is what
  makes every evaluation end.
Main exports: ModelFunction, ModelFunction.apply, ModelFunction.print, FunctionTable,
  FunctionTable.callWith, FunctionTable.call
-/
import FlatDae.Evaluation
import Std.Data.TreeMap

namespace FlatDae

/-- A function given by expressions over its inputs. -/
structure ModelFunction where
  name : String
  inputs : List Expr
  outputs : List Expr
deriving Inhabited

namespace ModelFunction

/-- The values of all outputs, in order, over the values of the inputs, as `evaluator` finds them. -/
def applyWith (evaluator : Environment → Expr → Except ModelError Float) (f : ModelFunction)
    (call : CallSemantics) (args : List Float) : Except ModelError (List Float) :=
  if args.length != f.inputs.length then
    .error (.functionFault f.name (.wrongArity f.inputs.length args.length))
  else
    let env : Environment := { table := .ofRows (f.inputs.zip args), call }
    f.outputs.mapM (evaluator env)

/-- The values of all outputs over the values of the inputs. -/
def apply (f : ModelFunction) (call : CallSemantics) (args : List Float) :
    Except ModelError (List Float) :=
  f.applyWith Environment.evaluate call args

/-- A function is printed with its inputs on one line and one line for every output. -/
def print (f : ModelFunction) : String :=
  let inputs := ", ".intercalate (f.inputs.map Expr.print)
  let outputs := f.outputs.mapIdx fun i output => s!"  {i}. " ++ output.print ++ "\n"
  s!"ModelFunction : {f.name}\n Inputs ({f.inputs.length}): " ++ inputs ++
    s!"\n Outputs ({f.outputs.length}):\n" ++ String.join outputs

end ModelFunction

/-- The functions of a model under their names. -/
abbrev FunctionTable := Std.TreeMap String ModelFunction

namespace FunctionTable

/-- Leaving out a function that is there makes a table smaller. -/
theorem size_erase_lt {table : FunctionTable} {name : String} {f : ModelFunction}
    (h : table[name]? = some f) : (table.erase name).size < table.size := by
  have present : name ∈ table := Std.TreeMap.mem_iff_isSome_getElem?.2 (by simp [h])
  have positive : 0 < table.size := by
    cases hempty : table.isEmpty with
    | true => exact absurd present (Std.TreeMap.not_mem_of_isEmpty hempty)
    | false => simpa [Std.TreeMap.isEmpty_eq_size_eq_zero, Nat.pos_iff_ne_zero] using hempty
  rw [Std.TreeMap.size_erase, if_pos (by simpa using present)]
  omega

/-- A call of `name` while the functions `active` are being called and those of `table` can still be
    entered, with `evaluator` for the outputs. An active function is refused before it is looked up. -/
def callWith (evaluator : Environment → Expr → Except ModelError Float) (table : FunctionTable)
    (active : List String) (name : String) (args : List Float) (output : Nat) :
    Except ModelError Float :=
  if active.contains name then .error (.functionFault name .recursiveCall)
  else
    match _h : table[name]? with
    | none => .error (.functionFault name .notInModel)
    | some f =>
      let inner : CallSemantics := fun g args k =>
        callWith evaluator (table.erase name) (name :: active) g args k
      match f.applyWith evaluator inner args with
      | .error error => .error error
      | .ok outputs =>
        match outputs[output]? with
        | some value => .ok value
        | none => .error (.functionFault name (.noOutput output))
termination_by table.size
decreasing_by exact size_erase_lt _h

/-- A call of `name` while the functions `active` are being called and those of `table` can still be
    entered. -/
def call (table : FunctionTable) (active : List String) : CallSemantics :=
  table.callWith Environment.evaluate active

end FunctionTable

end FlatDae
