/-
Module: FlatDae.Source.Grammar
Purpose: The grammar of model texts. Operators are read in levels, from the loosest: `or`; `and`; a
  `not`; one comparison; sums, with a sign in front of the first term only; products; one power;
  atoms. The words that open a declaration or a section need no blank behind them; the words that
  are operators or qualifiers are words of their own. `Source.parse?` reads a whole text.
Main exports: Source.keywords, Source.Grammar.expression, Source.Grammar.model, Source.ParseFailure,
  Source.parse
-/
import FlatDae.Decimal.Reading
import FlatDae.Source.Cursor
import FlatDae.Source.Tree

namespace FlatDae.Source

/-- The words that are no names. -/
def keywords : List String :=
  ["model", "end", "type", "function", "initial", "equation", "alias",
   "constant", "parameter", "discrete", "input", "output",
   "and", "or", "not", "true", "false"]

namespace Grammar

open FlatDae.Source.Parser

/-! ### Tokens -/

/-- A name: a letter or underscore, then letters, digits and underscores, and no keyword. -/
def name : Parser String := do
  skipBlanks
  let text := String.ofList (← takeWhile isNameChar)
  match text.toList with
  | [] => failure
  | c :: _ => if c.isDigit || keywords.contains text then failure else return text

/-- The digits of a number up to its exponent: digits with an optional point and more digits, or a
    point with at least one digit. -/
def mantissa : Parser (List Char) := do
  let whole ← takeWhile Char.isDigit
  if whole.isEmpty then
    exactly "."
    let fraction ← takeWhile Char.isDigit
    if fraction.isEmpty then failure else return '.' :: fraction
  else
    (do exactly "."
        return whole ++ '.' :: (← takeWhile Char.isDigit)) <|> pure whole

/-- The exponent of a number with its letter. -/
def exponent : Parser (List Char) := do
  exactly "e" <|> exactly "E"
  let sign ← firstOf [do exactly "+"; return ['+'], do exactly "-"; return ['-'], pure []]
  let digits ← takeWhile Char.isDigit
  if digits.isEmpty then failure else return 'e' :: sign ++ digits

/-- A number without sign. -/
def number : Parser Expression := do
  let offset ← start
  let digits ← mantissa
  let power ← exponent <|> pure []
  match Decimal.read? (String.ofList (digits ++ power)) with
  | some value => return .number offset value
  | none => failure

/-- A truth value. -/
def truth : Parser Expression := do
  let offset ← start
  (do word "true"; return .truth offset true) <|> (do word "false"; return .truth offset false)

/-- A name that stands for a value. -/
def reference : Parser Expression := do
  let offset ← start
  return .name offset (← name)

/-- A text between quotes, which cannot hold a quote. -/
def quoted : Parser AttributeValue := do
  let offset ← start
  exactly "\""
  let text ← takeWhile (· != '"')
  exactly "\""
  return .text offset (String.ofList text)

/-- One of the operators, by its spelling; of two that fit the first is taken. -/
def operator (ops : List BinaryOp) : Parser BinaryOp :=
  firstOf (ops.map fun op => do literal (spelling op); return op)

/-- A logical operator, which is a word. -/
def wordOperator (op : BinaryOp) : Parser BinaryOp := do
  word (spelling op)
  return op

/-! ### Expressions -/

/-- Operands with at most `bound` operators between them, taken together from the left. -/
def leftAssociative (bound : Nat) (op : Parser BinaryOp) (operand : Parser Expression) :
    Parser Expression := do
  let first ← operand
  let more ← many bound (do return (← op, ← operand))
  return more.foldl (fun left (op, right) => .binary left.start op left right) first

/-- A factor with at most one exponent. -/
def power (factor : Parser Expression) : Parser Expression :=
  leftAssociative 1 (operator [.pow]) factor

/-- Products and quotients. -/
def term (bound : Nat) (factor : Parser Expression) : Parser Expression :=
  leftAssociative bound (operator [.mul, .div]) (power factor)

/-- A term with a sign. -/
def signedTerm (bound : Nat) (factor : Parser Expression) : Parser Expression := do
  let offset ← start
  let sign ← firstOf [do literal "-"; return Sign.minus, do literal "+"; return Sign.plus]
  return .signed offset sign (← term bound factor)

/-- Sums and differences. Only the first term can have a sign, and the sign binds to it alone. -/
def arithmetic (bound : Nat) (factor : Parser Expression) : Parser Expression := do
  let first ← signedTerm bound factor <|> term bound factor
  let more ← many bound (do return (← operator [.sub, .add], ← term bound factor))
  return more.foldl (fun left (op, right) => .binary left.start op left right) first

/-- At most one comparison. -/
def relation (bound : Nat) (factor : Parser Expression) : Parser Expression :=
  leftAssociative 1 (operator [.eq, .ne, .le, .ge, .lt, .gt]) (arithmetic bound factor)

/-- A relation, which may be negated once. -/
def inversion (bound : Nat) (factor : Parser Expression) : Parser Expression := do
  let offset ← start
  match ← optional (word "not") with
  | some () => return .signed offset .not (← relation bound factor)
  | none => relation bound factor

/-- An expression over the given factors. -/
def expressionOver (bound : Nat) (factor : Parser Expression) : Parser Expression :=
  leftAssociative bound (wordOperator .or)
    (leftAssociative bound (wordOperator .and) (inversion bound factor))

/-- The output that a call selects. -/
def outputIndex : Parser Nat := do
  literal "\x7b"
  skipBlanks
  let digits ← takeWhile Char.isDigit
  if digits.isEmpty then failure
  literal "\x7d"
  return Decimal.natOfDigits digits

/-- A call over nested expressions. -/
def call (bound : Nat) (nested : Parser Expression) : Parser Expression := do
  let offset ← start
  let function ← name
  literal "("
  let args ← separated bound nested <|> pure []
  literal ")"
  return .call offset function args (← optional outputIndex)

/-- An expression in parentheses. -/
def parenthesised (nested : Parser Expression) : Parser Expression := do
  literal "("
  let e ← nested
  literal ")"
  return e

/-- Atoms, in which expressions are nested at most `depth` deep. -/
def factor (bound : Nat) : Nat → Parser Expression
  | 0 => failure
  | depth + 1 =>
    let nested := expressionOver bound (factor bound depth)
    firstOf [call bound nested, number, truth, reference, parenthesised nested]

/-- An expression of a text with at most `bound` characters, which can neither hold more parts nor
    nest deeper than it has characters. -/
def expression (bound : Nat) : Parser Expression := expressionOver bound (factor bound bound)

/-! ### Declarations -/

/-- `name = value`, the value a text or an expression. -/
def attributeSetting (bound : Nat) : Parser AttributeSetting := do
  let offset ← start
  let name ← name
  literal "="
  let value ← quoted <|> (do return .expression (← expression bound))
  return { start := offset, name, value }

/-- Attributes in parentheses; there may be none. -/
def modification (bound : Nat) : Parser (List AttributeSetting) := do
  literal "("
  let attributes ← separated bound (attributeSetting bound) <|> pure []
  literal ")"
  return attributes

/-- The declaration of a type. -/
def typeDeclaration (bound : Nat) : Parser TypeDeclaration := do
  let offset ← start
  literal "type"
  let declared ← name
  literal "="
  let base ← name
  let attributes ← modification bound <|> pure []
  literal ";"
  return { start := offset, name := declared, base, attributes }

/-- The declaration of a function. -/
def functionDeclaration (bound : Nat) : Parser FunctionDeclaration := do
  let offset ← start
  literal "function"
  let declared ← name
  literal "("
  let params ← separated bound name <|> pure []
  literal ")"
  literal "="
  literal "("
  let outputs ← separated bound (expression bound)
  literal ")"
  literal ";"
  return { start := offset, name := declared, params, outputs }

/-- A word in front of the type of a component. -/
def qualifier : Parser Qualifier :=
  firstOf (Qualifier.all.map fun q => do word q.spelling; return q)

/-- The variable that a component is an alias of. -/
def aliasClause : Parser AliasClause := do
  literal "alias"
  let negated ← (do literal "-"; return true) <|> pure false
  return { target := ← name, negated }

/-- The expression that a component is bound to. -/
def binding (bound : Nat) : Parser Expression := do
  literal "="
  expression bound

/-- The declaration of a component. -/
def component (bound : Nat) : Parser Component := do
  let offset ← start
  let qualifiers ← many bound qualifier
  let typeName ← name
  let declared ← name
  let attributes ← modification bound <|> pure []
  let (aliasOf, binding) ← firstOf
    [do return (some (← aliasClause), none),
     do return (none, some (← binding bound)),
     pure (none, none)]
  literal ";"
  return { start := offset, qualifiers, typeName, name := declared, attributes, binding, aliasOf }

/-- An equation. -/
def equation (bound : Nat) : Parser Equation := do
  let offset ← start
  let lhs ← expression bound
  literal "="
  let rhs ← expression bound
  literal ";"
  return { start := offset, lhs, rhs }

/-! ### Models -/

/-- What a model consists of. -/
inductive Element where
  | type (d : TypeDeclaration)
  | function (d : FunctionDeclaration)
  | component (c : Component)
  | initialSection (equations : List Equation)
  | equationSection (equations : List Equation)

/-- An element. A section takes in every equation that follows its head. -/
def element (bound : Nat) : Parser Element :=
  firstOf
    [do return .type (← typeDeclaration bound),
     do return .function (← functionDeclaration bound),
     do
      literal "initial"
      literal "equation"
      return .initialSection (← many bound (equation bound)),
     do
      literal "equation"
      return .equationSection (← many bound (equation bound)),
     do return .component (← component bound)]

/-- A model from its head to its end. The name at the end is any name. -/
def model (bound : Nat) : Parser Model := do
  let offset ← start
  literal "model"
  let declared ← name
  let elements ← many bound (element bound)
  literal "end"
  let _ ← name
  literal ";"
  return {
    start := offset
    name := declared
    types := elements.filterMap fun | .type d => some d | _ => none
    functions := elements.filterMap fun | .function d => some d | _ => none
    components := elements.filterMap fun | .component c => some c | _ => none
    initialEquations := (elements.filterMap fun | .initialSection es => some es | _ => none).flatten
    equations := (elements.filterMap fun | .equationSection es => some es | _ => none).flatten }

/-- A model and nothing else. -/
def wholeText (bound : Nat) : Parser Model := model bound <* atEnd

end Grammar

/-- The numbers of outputs that a text can select stay below this. -/
def outputLimit : Nat := Nat.pow 2 64

/-- Why a text is not read. -/
inductive ParseFailure where
  /-- The text does not follow the grammar. -/
  | malformed
  /-- A call selects an output whose number does not fit into 64 bits. -/
  | outputTooLarge
deriving DecidableEq, Repr

mutual

/-- Whether every output selected in an expression fits into 64 bits. -/
def Expression.outputsFit : Expression → Bool
  | .signed _ _ operand => operand.outputsFit
  | .binary _ _ left right => left.outputsFit && right.outputsFit
  | .call _ _ args output => outputsFitAll args && output.all (· < outputLimit)
  | _ => true

/-- Whether all outputs selected in the expressions fit. -/
def outputsFitAll : List Expression → Bool
  | [] => true
  | e :: es => e.outputsFit && outputsFitAll es

end

/-- Reads a model text. -/
def parse (text : String) : Except ParseFailure Model :=
  match (Grammar.wholeText text.length).run (.ofString text) with
  | none => .error .malformed
  | some (model, _) =>
    if outputsFitAll model.expressions then .ok model else .error .outputTooLarge

end FlatDae.Source
