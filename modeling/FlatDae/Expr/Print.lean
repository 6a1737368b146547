/-
Module: FlatDae.Expr.Print
Purpose: The text of an expression: every operation in parentheses, without blanks; functions as
  `f(a,b)`, a call with its output as `f(a,b){k}`, numbers in positional notation. A shared node is
  written out wherever it occurs.
Main exports: Expr.Piece, Expr.pieces, Expr.printWith, Expr.print
-/
import FlatDae.Decimal.Shortest
import FlatDae.Expr.Traversal

namespace FlatDae.Expr

/-- A part of a text still to be written. -/
inductive Piece where
  | text (s : String)
  | expr (e : Expr)

namespace Piece

/-- Weights under which the pieces of a node weigh less than the node. -/
noncomputable def weight : Piece → Nat
  | .text _ => 1
  | .expr e => 4 * sizeOf e

/-- The weight of all that is still to be written. -/
noncomputable def pendingWeight : List Piece → Nat
  | [] => 0
  | p :: ps => p.weight + pendingWeight ps

@[simp] theorem pendingWeight_nil : pendingWeight [] = 0 := rfl

@[simp] theorem pendingWeight_cons (p : Piece) (ps : List Piece) :
    pendingWeight (p :: ps) = p.weight + pendingWeight ps := rfl

@[simp] theorem pendingWeight_append (ps qs : List Piece) :
    pendingWeight (ps ++ qs) = pendingWeight ps + pendingWeight qs := by
  induction ps with
  | nil => simp
  | cons p ps ih => simp [ih, Nat.add_assoc]

end Piece

/-- The expressions with commas between them. -/
def commaSeparated : List Expr → List Piece
  | [] => []
  | [e] => [.expr e]
  | e :: es => .expr e :: .text "," :: commaSeparated es

/-- A node's own text around its children. -/
def pieces : Expr → List Piece
  | .constant _ value => [.text (Decimal.text value)]
  | .symbol _ name => [.text name]
  | .unary _ op child => [.text op.opening, .expr child, .text ")"]
  | .binary _ op left right => [.text "(", .expr left, .text op.symbol, .expr right, .text ")"]
  | .der _ child => [.text "der(", .expr child, .text ")"]
  | .call _ function args output =>
    .text function :: .text "(" :: commaSeparated args ++
      [.text ")\x7b", .text (toString output), .text "\x7d"]
  | .vertcat _ rows => .text "vertcat(" :: commaSeparated rows ++ [.text ")"]

/-- Each comma is paid for by the expression in front of it. -/
theorem pendingWeight_commaSeparated_le (es : List Expr) :
    Piece.pendingWeight (commaSeparated es) ≤ 4 * pendingSize es + es.length := by
  fun_induction commaSeparated es with
  | case1 => simp
  | case2 e => simp [Piece.weight]
  | case3 e es _ ih => simp [Piece.weight] at ih ⊢; omega

/-- The pieces of a node weigh less than the node. -/
theorem pendingWeight_pieces_lt (e : Expr) :
    Piece.pendingWeight e.pieces < Piece.weight (.expr e) := by
  cases e with
  | call _ _ args _ =>
    have := pendingWeight_commaSeparated_le args
    have := pendingSize_add_length_lt args
    simp [pieces, Piece.weight]; omega
  | vertcat _ rows =>
    have := pendingWeight_commaSeparated_le rows
    have := pendingSize_add_length_lt rows
    simp [pieces, Piece.weight]; omega
  | _ =>
    simp only [pieces, Piece.pendingWeight_cons, Piece.pendingWeight_nil, Piece.weight,
      Expr.constant.sizeOf_spec, Expr.symbol.sizeOf_spec, Expr.unary.sizeOf_spec,
      Expr.binary.sizeOf_spec, Expr.der.sizeOf_spec]
    omega

/-- Writes the pieces one after the other behind `written`. An expression that is `known` is written
    as its value. -/
def writePieces (known : Expr → Option Float) : List Piece → String → String
  | [], written => written
  | .text s :: rest, written => writePieces known rest (written ++ s)
  | .expr e :: rest, written =>
    match known e with
    | some value => writePieces known rest (written ++ Decimal.text value)
    | none => writePieces known (e.pieces ++ rest) written
termination_by pieces => Piece.pendingWeight pieces
decreasing_by
  · simp [Piece.weight]
  · have := sizeOf_pos e
    simp only [Piece.pendingWeight_cons, Piece.weight]
    omega
  · have := pendingWeight_pieces_lt e
    simp; omega

/-- The text of an expression in which some nodes stand for their known values. -/
def printWith (known : Expr → Option Float) (e : Expr) : String :=
  writePieces known [.expr e] ""

/-- The text of an expression. -/
def print (e : Expr) : String := e.printWith fun _ => none

/-- A symbol is written as its name. -/
theorem print_symbol (id : NodeId) (name : String) : (symbol id name).print = name := by
  simp [print, printWith, writePieces, pieces]

end FlatDae.Expr
