/-
Module: FlatDae.Model.Print
Purpose: The text of a model: the time variable, the variables by kind, the functions, the equations
  and both residuals, under fixed headings.
Main exports: Model.print
-/
import FlatDae.Model.Basic

namespace FlatDae.Model

/-- A line with a line end. -/
def line (text : String) : String := text ++ "\n"

/-- The variables of a kind under its name; nothing if there are none. -/
def printKind (m : Model) (kind : VariableKind) : String :=
  match m.variablesOfKind kind with
  | [] => ""
  | vs =>
    line (kind.name ++ ":") ++ String.join (vs.map fun v => line ("  " ++ m.store.print v))

/-- The functions in the order of their names, under a heading; nothing if there are none. -/
def printFunctions (m : Model) : String :=
  if m.functions.isEmpty then ""
  else
    line "---------------------------- Model functions ----------------------------" ++
      String.join (m.functions.toList.map fun (_, f) => f.print)

/-- Equations, one to a line. -/
def printEquations (equations : Array Equation) : String :=
  String.join (equations.toList.map fun eq => line ("  " ++ eq.print))

/-- The text of a model. -/
def print (m : Model) : String :=
  let time := match m.time with
    | some time => line ("Time variable: " ++ time.print)
    | none => ""
  time ++
    line "------------------------------- Variables -------------------------------" ++
    String.join (VariableKind.all.map m.printKind) ++
    m.printFunctions ++
    line "------------------------------- Equations -------------------------------" ++
    line "Initial equations:" ++
    printEquations m.initialEquations ++
    line "DAE equations:" ++
    printEquations m.daeEquations ++
    line ("Initial residual: " ++ m.initialResidual.1.print) ++
    line ("DAE residual: " ++ m.daeResidual.1.print)

end FlatDae.Model
