/-
Module: FlatDae.Proofs.SyntaxPairs
Purpose: The grammar of model texts once more, told by what its rules take and not by what that means. Each
  rule leaves a pair: the rule, the place and the characters it took, and the pairs of the rules within it.
  A token is a pair without parts. Punctuation and the words that only mark a place leave nothing.
Main exports: Rule, Pair, Pairs.pair, Pairs.token, Pairs.expressionOver, Pairs.model, Source.pairs?
-/
import FlatDae.Source.Grammar

namespace FlatDae.Source

/-- The rules of the grammar that leave a pair. -/
inductive Rule where
  | main
  | model
  | typeDeclaration
  | functionDeclaration
  | params
  | outputs
  | component
  | qualifier
  | modification
  | attributeSetting
  | binding
  | aliasClause
  | negation
  | initialSection
  | equationSection
  | equation
  | expression
  | conjunction
  | inversion
  | relation
  | arithmetic
  | term
  | power
  | factor
  | call
  | outputIndex
  | orOperator
  | andOperator
  | notOperator
  | comparison
  | sign
  | termOperator
  | factorOperator
  | powerOperator
  | name
  | truth
  | integer
  | number
  | quoted
  | quotedText
  | textEnd
deriving DecidableEq, Repr

/-- What a rule took: where it starts, its characters, and what the rules within it took, in order. -/
inductive Pair where
  | mk (rule : Rule) (start : Nat) (text : String) (inner : List Pair)

namespace Pair

/-- The rule that took it. -/
def rule : Pair → Rule
  | mk rule _ _ _ => rule

/-- The offset at which it starts. -/
def start : Pair → Nat
  | mk _ start _ _ => start

/-- Its characters. -/
def text : Pair → String
  | mk _ _ text _ => text

/-- The pairs within it. -/
def inner : Pair → List Pair
  | mk _ _ _ inner => inner

end Pair

/-- The characters from one place to a later one. -/
def Cursor.textTo (c c' : Cursor) : String :=
  String.ofList (c.rest.take (c.rest.length - c'.rest.length))

namespace Pairs

open FlatDae.Source.Parser

variable {α : Type}

/-- A rule that begins right here. -/
def pairHere (rule : Rule) (body : Parser (List Pair)) : Parser Pair := do
  let c ← get
  let inner ← body
  return .mk rule c.offset (c.textTo (← get)) inner

/-- A rule that begins behind the blanks. -/
def pair (rule : Rule) (body : Parser (List Pair)) : Parser Pair := do
  skipBlanks
  pairHere rule body

/-- A rule without parts. Only the characters are kept, whatever else the parser finds in them. -/
def token (rule : Rule) (p : Parser α) : Parser Pair :=
  pair rule do
    let _ ← p
    return []

/-! ### Tokens -/

/-- A name. -/
def name : Parser Pair := token .name Grammar.name

/-- The digits of a number, with its exponent. -/
def numeral : Parser (List Char) := do
  let digits ← Grammar.mantissa
  let power ← Grammar.exponent <|> pure []
  return digits ++ power

/-- A number. -/
def number : Parser Pair := token .number numeral

/-- A truth value. -/
def truth : Parser Pair :=
  token .truth ((do word "true"; return true) <|> (do word "false"; return false))

/-- A text between quotes, which stand in no blanks of its own. -/
def quoted : Parser Pair :=
  pair .quoted do
    exactly "\""
    let text ← pairHere .quotedText do
      let _ ← takeWhile (· != '"')
      return []
    exactly "\""
    return [text]

/-- Digits, at least one. -/
def digits : Parser (List Char) := do
  let digits ← takeWhile Char.isDigit
  if digits.isEmpty then failure
  return digits

/-! ### Expressions -/

/-- At most `bound` operators, each with an operand behind it, side by side. -/
def links (bound : Nat) (op operand : Parser Pair) : Parser (List Pair) := do
  let more ← many bound (do return [← op, ← operand])
  return more.flatten

/-- An operand and the operators with their operands that follow it. -/
def chain (bound : Nat) (op operand : Parser Pair) : Parser (List Pair) := do
  let first ← operand
  return first :: (← links bound op operand)

/-- A factor with at most one exponent. -/
def power (factor : Parser Pair) : Parser Pair :=
  pair .power (chain 1 (token .powerOperator (Grammar.operator [.pow])) factor)

/-- Products and quotients. -/
def term (bound : Nat) (factor : Parser Pair) : Parser Pair :=
  pair .term (chain bound (token .factorOperator (Grammar.operator [.mul, .div])) (power factor))

/-- A sign. -/
def sign : Parser Sign :=
  firstOf [do literal "-"; return Sign.minus, do literal "+"; return Sign.plus]

/-- Sums and differences, which a sign may stand in front of. -/
def arithmetic (bound : Nat) (factor : Parser Pair) : Parser Pair :=
  pair .arithmetic do
    let sign ← optional (token .sign sign)
    let terms ← chain bound (token .termOperator (Grammar.operator [.sub, .add])) (term bound factor)
    return sign.toList ++ terms

/-- At most one comparison. -/
def relation (bound : Nat) (factor : Parser Pair) : Parser Pair :=
  pair .relation (chain 1 (token .comparison (Grammar.operator [.eq, .ne, .le, .ge, .lt, .gt]))
    (arithmetic bound factor))

/-- A relation, which may be negated once. -/
def inversion (bound : Nat) (factor : Parser Pair) : Parser Pair :=
  pair .inversion do
    let negated ← optional (token .notOperator (word "not"))
    let operand ← relation bound factor
    return negated.toList ++ [operand]

/-- Relations with `and` between them. -/
def conjunction (bound : Nat) (factor : Parser Pair) : Parser Pair :=
  pair .conjunction
    (chain bound (token .andOperator (Grammar.wordOperator .and)) (inversion bound factor))

/-- An expression over the given factors. -/
def expressionOver (bound : Nat) (factor : Parser Pair) : Parser Pair :=
  pair .expression
    (chain bound (token .orOperator (Grammar.wordOperator .or)) (conjunction bound factor))

/-- The output that a call selects. -/
def outputIndex : Parser Pair :=
  pair .outputIndex do
    literal "\x7b"
    let index ← token .integer digits
    literal "\x7d"
    return [index]

/-- A call over nested expressions. -/
def call (bound : Nat) (nested : Parser Pair) : Parser Pair :=
  pair .call do
    let function ← name
    literal "("
    let args ← separated bound nested <|> pure []
    literal ")"
    let output ← optional outputIndex
    return function :: args ++ output.toList

/-- An expression in parentheses, of which the expression remains. -/
def parenthesised (nested : Parser Pair) : Parser Pair := do
  literal "("
  let e ← nested
  literal ")"
  return e

/-- Atoms, in which expressions are nested at most `depth` deep. -/
def factor (bound : Nat) : Nat → Parser Pair
  | 0 => failure
  | depth + 1 =>
    let nested := expressionOver bound (factor bound depth)
    pair .factor do
      return [← firstOf [call bound nested, number, truth, name, parenthesised nested]]

/-- An expression of a text with at most `bound` characters. -/
def expression (bound : Nat) : Parser Pair := expressionOver bound (factor bound bound)

/-! ### Declarations -/

/-- `name = value`, the value a text or an expression. -/
def attributeSetting (bound : Nat) : Parser Pair :=
  pair .attributeSetting do
    let name ← name
    literal "="
    let value ← quoted <|> expression bound
    return [name, value]

/-- Attributes in parentheses. -/
def modification (bound : Nat) : Parser Pair :=
  pair .modification do
    literal "("
    let attributes ← separated bound (attributeSetting bound) <|> pure []
    literal ")"
    return attributes

/-- The declaration of a type. -/
def typeDeclaration (bound : Nat) : Parser Pair :=
  pair .typeDeclaration do
    literal "type"
    let declared ← name
    literal "="
    let base ← name
    let attributes ← optional (modification bound)
    literal ";"
    return declared :: base :: attributes.toList

/-- The inputs of a function. -/
def params (bound : Nat) : Parser Pair :=
  pair .params do
    literal "("
    let names ← separated bound name <|> pure []
    literal ")"
    return names

/-- The outputs of a function. -/
def outputs (bound : Nat) : Parser Pair :=
  pair .outputs do
    literal "("
    let expressions ← separated bound (expression bound)
    literal ")"
    return expressions

/-- The declaration of a function. -/
def functionDeclaration (bound : Nat) : Parser Pair :=
  pair .functionDeclaration do
    literal "function"
    let declared ← name
    let inputs ← params bound
    literal "="
    let results ← outputs bound
    literal ";"
    return [declared, inputs, results]

/-- The variable that a component is an alias of. -/
def aliasClause : Parser Pair :=
  pair .aliasClause do
    literal "alias"
    let negated ← optional (token .negation (literal "-"))
    let target ← name
    return negated.toList ++ [target]

/-- The expression that a component is bound to. -/
def binding (bound : Nat) : Parser Pair :=
  pair .binding do
    literal "="
    return [← expression bound]

/-- The declaration of a component. -/
def component (bound : Nat) : Parser Pair :=
  pair .component do
    let qualifiers ← many bound (token .qualifier Grammar.qualifier)
    let typeName ← name
    let declared ← name
    let attributes ← optional (modification bound)
    let definition ← optional (aliasClause <|> binding bound)
    literal ";"
    return qualifiers ++ typeName :: declared :: (attributes.toList ++ definition.toList)

/-- An equation. -/
def equation (bound : Nat) : Parser Pair :=
  pair .equation do
    let lhs ← expression bound
    literal "="
    let rhs ← expression bound
    literal ";"
    return [lhs, rhs]

/-! ### Models -/

/-- What a model consists of. -/
def element (bound : Nat) : Parser Pair :=
  firstOf
    [typeDeclaration bound,
     functionDeclaration bound,
     pair .initialSection do
      literal "initial"
      literal "equation"
      many bound (equation bound),
     pair .equationSection do
      literal "equation"
      many bound (equation bound),
     component bound]

/-- A model from its head to its end. -/
def model (bound : Nat) : Parser Pair :=
  pair .model do
    literal "model"
    let declared ← name
    let elements ← many bound (element bound)
    literal "end"
    let closing ← name
    literal ";"
    return declared :: elements ++ [closing]

/-- A model and the end of the text. -/
def main (bound : Nat) : Parser Pair :=
  pairHere .main do
    let model ← model bound
    let last ← token .textEnd atEnd
    return [model, last]

end Pairs

/-- What the rules take of a text, if it follows the grammar: a single pair, that of the whole text. -/
def pairs? (text : String) : Option (List Pair) :=
  ((Pairs.main text.length).run (.ofString text)).map fun (main, _) => [main]

end FlatDae.Source
