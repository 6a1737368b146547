/-
Module: FlatDae.Operator
Purpose: The operators of expressions: their names in a model text, their printed form and what they
  compute. Truth values are numbers, one and zero; every number but zero counts as true.
Main exports: truthValue, UnaryOp, UnaryOp.ofName?, UnaryOp.apply, BinaryOp, BinaryOp.ofSymbol?,
  BinaryOp.apply
-/

namespace FlatDae

/-- The number that stands for a truth value. -/
def truthValue (b : Bool) : Float := if b then 1.0 else 0.0

/-- Operators and built-in functions of one argument. -/
inductive UnaryOp where
  | negate
  | not
  | sin
  | cos
  | tan
  | exp
  | log
  | sqrt
  | abs
deriving DecidableEq, Repr, Inhabited

namespace UnaryOp

/-- The built-in functions are called by name; the signs and `not` have a spelling of their own in
    the grammar and no name here. -/
def ofName? : String → Option UnaryOp
  | "sin" => some .sin
  | "cos" => some .cos
  | "tan" => some .tan
  | "exp" => some .exp
  | "log" => some .log
  | "sqrt" => some .sqrt
  | "abs" => some .abs
  | _ => none

/-- The value of the operator; `log` is the natural logarithm. -/
def apply (op : UnaryOp) (x : Float) : Float :=
  match op with
  | .negate => -x
  | .not => truthValue (x == 0.0)
  | .sin => x.sin
  | .cos => x.cos
  | .tan => x.tan
  | .exp => x.exp
  | .log => x.log
  | .sqrt => x.sqrt
  | .abs => x.abs

/-- What is printed before the operand, up to and with what binds it to the parenthesis. -/
def opening : UnaryOp → String
  | .negate => "(-"
  | .not => "(!"
  | .sin => "sin("
  | .cos => "cos("
  | .tan => "tan("
  | .exp => "exp("
  | .log => "log("
  | .sqrt => "sqrt("
  | .abs => "abs("

end UnaryOp

/-- Operators of two operands. -/
inductive BinaryOp where
  | add
  | sub
  | mul
  | div
  | pow
  | eq
  | ne
  | lt
  | le
  | gt
  | ge
  | and
  | or
deriving DecidableEq, Repr, Inhabited

namespace BinaryOp

/-- Both the printed symbols and the words `and` and `or` are accepted. -/
def ofSymbol? : String → Option BinaryOp
  | "+" => some .add
  | "-" => some .sub
  | "*" => some .mul
  | "/" => some .div
  | "^" => some .pow
  | "==" => some .eq
  | "<>" => some .ne
  | "<" => some .lt
  | "<=" => some .le
  | ">" => some .gt
  | ">=" => some .ge
  | "and" => some .and
  | "&&" => some .and
  | "or" => some .or
  | "||" => some .or
  | _ => none

/-- The printed symbol. -/
def symbol : BinaryOp → String
  | .add => "+"
  | .sub => "-"
  | .mul => "*"
  | .div => "/"
  | .pow => "^"
  | .eq => "=="
  | .ne => "<>"
  | .lt => "<"
  | .le => "<="
  | .gt => ">"
  | .ge => ">="
  | .and => "&&"
  | .or => "||"

/-- The value of the operator. Comparisons are those of doubles: a non-number equals nothing. -/
def apply (op : BinaryOp) (a b : Float) : Float :=
  match op with
  | .add => a + b
  | .sub => a - b
  | .mul => a * b
  | .div => a / b
  | .pow => a.pow b
  | .eq => truthValue (a == b)
  | .ne => truthValue (a != b)
  | .lt => truthValue (a < b)
  | .le => truthValue (a ≤ b)
  | .gt => truthValue (b < a)
  | .ge => truthValue (b ≤ a)
  | .and => truthValue (a != 0.0 && b != 0.0)
  | .or => truthValue (a != 0.0 || b != 0.0)

end BinaryOp

end FlatDae
