/-
Module: FlatDae.ParameterTable
Purpose: Known values of nodes, in the order in which they became known. A node may occur in several
  rows. Asked for by itself it has the value of its first row; inside a larger expression it has
  that of its last row.
Main exports: ParameterTable, ParameterTable.push, ParameterTable.first?, ParameterTable.last?
-/
import FlatDae.Expr.Basic

namespace FlatDae

/-- Rows of nodes with their values. -/
structure ParameterTable where
  rows : Array (Expr × Float) := #[]
deriving Inhabited

namespace ParameterTable

/-- The table of the given rows. -/
def ofRows (rows : List (Expr × Float)) : ParameterTable := ⟨rows.toArray⟩

/-- Adds a row at the end. -/
def push (table : ParameterTable) (node : Expr) (value : Float) : ParameterTable :=
  ⟨table.rows.push (node, value)⟩

/-- The number of rows. -/
def size (table : ParameterTable) : Nat := table.rows.size

/-- Whether there is no row. -/
def isEmpty (table : ParameterTable) : Bool := table.rows.isEmpty

/-- The nodes in the order of their rows. -/
def nodes (table : ParameterTable) : List Expr := table.rows.toList.map Prod.fst

/-- The values in the order of their rows. -/
def values (table : ParameterTable) : List Float := table.rows.toList.map Prod.snd

/-- The value in the first row of a node. -/
def first? (table : ParameterTable) (node : Expr) : Option Float :=
  (table.rows.find? fun row => row.1.same node).map Prod.snd

/-- The value in the last row of a node. -/
def last? (table : ParameterTable) (node : Expr) : Option Float :=
  (table.rows.findRev? fun row => row.1.same node).map Prod.snd

end ParameterTable

end FlatDae
