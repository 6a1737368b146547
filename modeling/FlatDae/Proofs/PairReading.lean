/-
Module: FlatDae.Proofs.PairReading
Purpose: From the pairs of a text to its tree, with everything that the pairs are trusted for made a
  question: that a part which is taken is there, that a pair is of a rule that can stand where it stands,
  that the characters of a token are an operator, a qualifier or a number. Where the answer is no, the
  reading stops with a defect.
Main exports: Defect, Checked, readExpression, readComponent, readModel, readText
-/
import FlatDae.Proofs.SyntaxPairs

namespace FlatDae.Source

/-- What can be wrong when something is taken for granted. -/
inductive Defect where
  /-- A part is taken where none is left. -/
  | missingPart
  /-- A pair of this rule stands where none is expected. -/
  | unexpectedRule (rule : Rule)
  /-- The characters of a token are none of the words that the token has. -/
  | unknownWord (text : String)
  /-- The characters are no number. -/
  | notNumber (text : String)
  /-- The characters are the number of an output that does not fit into 64 bits. -/
  | tooLarge
  /-- A table has nothing under the name. -/
  | noEntry (name : String)
  /-- A list has no member at the place. -/
  | outOfRange (place : Nat)
deriving DecidableEq, Repr

/-- A result, or the defect that was met on the way to it. -/
abbrev Checked := Except Defect

/-! ### Tokens -/

/-- Takes the first of the pairs. -/
def next : List Pair → Checked (Pair × List Pair)
  | [] => .error .missingPart
  | p :: rest => .ok (p, rest)

/-- Takes the first of the pairs if it is of the rule. -/
def nextIf (rule : Rule) : List Pair → Option Pair × List Pair
  | [] => (none, [])
  | p :: rest => if p.rule = rule then (some p, rest) else (none, p :: rest)

/-- The number that the characters write. -/
def numberOf (text : String) : Checked Float :=
  match Decimal.read? text with
  | some value => .ok value
  | none => .error (.notNumber text)

/-- The number of an output. -/
def indexOf (text : String) : Checked Nat :=
  if text.toList.isEmpty || !text.toList.all Char.isDigit then .error (.notNumber text)
  else if Decimal.natOfDigits text.toList < outputLimit then .ok (Decimal.natOfDigits text.toList)
  else .error .tooLarge

/-- The operator that the characters are. -/
def operatorOf (text : String) : Checked BinaryOp :=
  match BinaryOp.ofSymbol? text with
  | some op => .ok op
  | none => .error (.unknownWord text)

/-- The sign that the characters are. -/
def signOf (text : String) : Checked Sign :=
  match text with
  | "-" => .ok .minus
  | "+" => .ok .plus
  | _ => .error (.unknownWord text)

/-- The qualifier that the characters are. -/
def qualifierOf (text : String) : Checked Qualifier :=
  match text with
  | "constant" => .ok .constant
  | "parameter" => .ok .parameter
  | "discrete" => .ok .discrete
  | "input" => .ok .input
  | "output" => .ok .output
  | _ => .error (.unknownWord text)

/-- The output that a call selects. -/
def readIndex (p : Pair) : Checked Nat := do
  let (index, _) ← next p.inner
  indexOf index.text

/-! ### Expressions -/

mutual

/-- Reads an expression, by the rule that took it. -/
def readExpression : Pair → Checked Expression
  | .mk rule start text inner =>
    match rule with
    | .name => .ok (.name start text)
    | .number => do return .number start (← numberOf text)
    | .truth => .ok (.truth start (text == "true"))
    | .expression => readChain inner
    | .conjunction => readChain inner
    | .inversion => readInversion start inner
    | .relation => readChain inner
    | .arithmetic => readArithmetic inner
    | .term => readChain inner
    | .power => readChain inner
    | .factor => readFirst inner
    | .call => readCall start inner
    | _ => .error (.unexpectedRule rule)

/-- Reads the one part there is. -/
def readFirst : List Pair → Checked Expression
  | [] => .error .missingPart
  | p :: _ => readExpression p

/-- Reads operands with operators between them, and takes them together from the left. -/
def readChain : List Pair → Checked Expression
  | [] => .error .missingPart
  | first :: rest => do readOperators rest (← readExpression first)

/-- Reads what follows the expression `left`. -/
def readOperators : List Pair → Expression → Checked Expression
  | [], left => .ok left
  | op :: rest, left =>
    match rest with
    | [] => .error .missingPart
    | operand :: rest => do
      let right ← readExpression operand
      readOperators rest (.binary left.start (← operatorOf op.text) left right)

/-- Reads a relation with or without a negation. -/
def readInversion (start : Nat) : List Pair → Checked Expression
  | [] => .error .missingPart
  | first :: rest =>
    if first.rule = .notOperator then
      match rest with
      | [] => .error .missingPart
      | operand :: _ => do return .signed start .not (← readExpression operand)
    else readExpression first

/-- Reads a sum. A sign binds to its first term only. -/
def readArithmetic : List Pair → Checked Expression
  | [] => .error .missingPart
  | first :: rest =>
    if first.rule = .sign then
      match rest with
      | [] => .error .missingPart
      | operand :: rest => do
        let term ← readExpression operand
        readOperators rest (.signed first.start (← signOf first.text) term)
    else do readOperators rest (← readExpression first)

/-- Reads a call. -/
def readCall (start : Nat) : List Pair → Checked Expression
  | [] => .error .missingPart
  | function :: rest => do
    let (args, output) ← readArguments rest
    return .call start function.text args output

/-- Reads the arguments of a call and the output that it selects. -/
def readArguments : List Pair → Checked (List Expression × Option Nat)
  | [] => .ok ([], none)
  | p :: rest =>
    if p.rule = .outputIndex then do
      let index ← readIndex p
      let (args, output) ← readArguments rest
      return (args, output <|> some index)
    else do
      let arg ← readExpression p
      let (args, output) ← readArguments rest
      return (arg :: args, output)

end

/-! ### Declarations -/

/-- Reads the value of an attribute. -/
def readValue (p : Pair) : Checked AttributeValue :=
  match p.rule with
  | .quoted => do
    let (text, _) ← next p.inner
    return .text p.start text.text
  | _ => do return .expression (← readExpression p)

/-- Reads `name = value`. -/
def readSetting (p : Pair) : Checked AttributeSetting :=
  match p.rule with
  | .attributeSetting => do
    let (name, rest) ← next p.inner
    let (value, _) ← next rest
    return { start := p.start, name := name.text, value := ← readValue value }
  | rule => .error (.unexpectedRule rule)

/-- Reads an equation. -/
def readEquation (p : Pair) : Checked Equation :=
  match p.rule with
  | .equation => do
    let (lhs, rest) ← next p.inner
    let (rhs, _) ← next rest
    return { start := p.start, lhs := ← readExpression lhs, rhs := ← readExpression rhs }
  | rule => .error (.unexpectedRule rule)

/-- Reads the declaration of a type. -/
def readType (p : Pair) : Checked TypeDeclaration := do
  let (name, rest) ← next p.inner
  let (base, rest) ← next rest
  let attributes ← match rest with
    | [] => .ok []
    | modification :: _ => modification.inner.mapM readSetting
  return { start := p.start, name := name.text, base := base.text, attributes }

/-- Reads the declaration of a function. -/
def readFunction (p : Pair) : Checked FunctionDeclaration := do
  let (name, rest) ← next p.inner
  let (params, rest) ← next rest
  let (outputs, _) ← next rest
  let outputs ← outputs.inner.mapM readExpression
  return { start := p.start, name := name.text, params := params.inner.map (·.text), outputs }

/-- Reads the qualifiers in front of a component, and leaves the rest of it. -/
def readQualifiers : List Pair → Checked (List Qualifier × List Pair)
  | [] => .ok ([], [])
  | p :: rest =>
    if p.rule = .qualifier then do
      let qualifier ← qualifierOf p.text
      let (qualifiers, rest) ← readQualifiers rest
      return (qualifier :: qualifiers, rest)
    else .ok ([], p :: rest)

/-- Reads the variable that a component is an alias of. -/
def readAlias (p : Pair) : Checked AliasClause := do
  let (negation, rest) := nextIf .negation p.inner
  let (target, _) ← next rest
  return { target := target.text, negated := negation.isSome }

/-- Reads the parts of a component behind its name. -/
def readDefinition (c : Component) (p : Pair) : Checked Component :=
  match p.rule with
  | .modification => do return { c with attributes := ← p.inner.mapM readSetting }
  | .binding => do
    let (value, _) ← next p.inner
    return { c with binding := some (← readExpression value) }
  | .aliasClause => do return { c with aliasOf := some (← readAlias p) }
  | rule => .error (.unexpectedRule rule)

/-- Reads the declaration of a component. -/
def readComponent (p : Pair) : Checked Component := do
  let (qualifiers, rest) ← readQualifiers p.inner
  let (typeName, rest) ← next rest
  let (name, rest) ← next rest
  let head : Component := {
    start := p.start
    qualifiers
    typeName := typeName.text
    name := name.text
    attributes := []
    binding := none
    aliasOf := none }
  rest.foldlM readDefinition head

/-! ### Models -/

/-- Reads one part of a model behind its name. The name at the end is passed over. -/
def readElement (m : Model) (p : Pair) : Checked Model :=
  match p.rule with
  | .typeDeclaration => do return { m with types := m.types ++ [← readType p] }
  | .functionDeclaration => do return { m with functions := m.functions ++ [← readFunction p] }
  | .component => do return { m with components := m.components ++ [← readComponent p] }
  | .initialSection => do
    return { m with initialEquations := m.initialEquations ++ (← p.inner.mapM readEquation) }
  | .equationSection => do return { m with equations := m.equations ++ (← p.inner.mapM readEquation) }
  | .name => .ok m
  | rule => .error (.unexpectedRule rule)

/-- Reads a model. -/
def readModel (p : Pair) : Checked Model :=
  match p.rule with
  | .model => do
    let (name, rest) ← next p.inner
    let head : Model := {
      start := p.start
      name := name.text
      types := []
      functions := []
      components := []
      initialEquations := []
      equations := [] }
    rest.foldlM readElement head
  | rule => .error (.unexpectedRule rule)

/-- Reads the tree of a text from its pairs. -/
def readText (pairs : List Pair) : Checked Model := do
  let (main, _) ← next pairs
  let (model, _) ← next main.inner
  readModel model

/-- Reads a model text in two passes: the rules first, and then what they took. -/
def parseChecked (text : String) : Checked (Except ParseFailure Model) :=
  match pairs? text with
  | none => .ok (.error .malformed)
  | some pairs => do return .ok (← readText pairs)

end FlatDae.Source
