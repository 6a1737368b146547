/-
Module: FlatDae.Source.Cursor
Purpose: Reading a text from left to right. A `Parser` takes what it recognises off the front of a
  cursor or fails and leaves the cursor alone, so alternatives are tried in order and the first that
  fits is taken. Blanks and comments may stand in front of every token. Repetition is bounded by a
  number that the caller takes from the size of the text.
Main exports: Cursor, Parser, Parser.skipBlanks, Parser.literal, Parser.word, Parser.many,
  Parser.separated
-/

namespace FlatDae.Source

/-- A place in a text: the bytes in front of it and the characters behind it. -/
structure Cursor where
  offset : Nat
  rest : List Char
deriving DecidableEq, Repr, Inhabited

namespace Cursor

/-- The beginning of a text. -/
def ofString (text : String) : Cursor := ⟨0, text.toList⟩

/-- The number of bytes of the characters. -/
def byteLength : List Char → Nat
  | [] => 0
  | c :: rest => c.utf8Size + byteLength rest

/-- Moves past `taken`, behind which `rest` remains. -/
def advance (c : Cursor) (taken rest : List Char) : Cursor :=
  ⟨c.offset + byteLength taken, rest⟩

end Cursor

/-- Characters that part tokens and mean nothing. -/
def isBlank (c : Char) : Bool := c == ' ' || c == '\t' || c == '\n' || c == '\r'

/-- Characters that a name goes on with. -/
def isNameChar (c : Char) : Bool := c == '_' || c.isAlphanum

/-- Where a scan over blanks stands: between comments, in a comment that ends with the line, or in
    one that began at `opened` and has to be closed. -/
inductive BlankState where
  | between
  | line
  | block (opened : Cursor)

/-- Skips blanks, comments from `//` to the end of the line, and comments from `/*` to the next
    `*/`. An opening that is never closed is no comment. -/
def skipBlanksFrom : BlankState → Nat → List Char → Cursor
  | .between, offset, '/' :: '/' :: rest => skipBlanksFrom .line (offset + 2) rest
  | .between, offset, '/' :: '*' :: rest =>
    skipBlanksFrom (.block ⟨offset, '/' :: '*' :: rest⟩) (offset + 2) rest
  | .between, offset, c :: rest =>
    if isBlank c then skipBlanksFrom .between (offset + c.utf8Size) rest else ⟨offset, c :: rest⟩
  | .line, offset, c :: rest =>
    if c == '\n' || c == '\r' then skipBlanksFrom .between (offset + c.utf8Size) rest
    else skipBlanksFrom .line (offset + c.utf8Size) rest
  | .block _, offset, '*' :: '/' :: rest => skipBlanksFrom .between (offset + 2) rest
  | .block opened, offset, c :: rest => skipBlanksFrom (.block opened) (offset + c.utf8Size) rest
  | .block opened, _, [] => opened
  | .between, offset, [] => ⟨offset, []⟩
  | .line, offset, [] => ⟨offset, []⟩

/-- Takes something off the front of a cursor, or fails. -/
abbrev Parser := StateT Cursor Option

namespace Parser

/-- Skips the blanks and comments at the front. -/
def skipBlanks : Parser Unit := modify fun c => skipBlanksFrom .between c.offset c.rest

/-- Skips blanks and tells where the next token starts. -/
def start : Parser Nat := do
  skipBlanks
  return (← get).offset

/-- The longest run of characters that satisfy `p`, which may be empty. -/
def takeWhile (p : Char → Bool) : Parser (List Char) :=
  modifyGet fun c =>
    let taken := c.rest.takeWhile p
    (taken, c.advance taken (c.rest.dropWhile p))

/-- The characters of `text`, right at the front. -/
def exactly (text : String) : Parser Unit := do
  let c ← get
  match text.toList.isPrefixOf? c.rest with
  | some rest => set (c.advance text.toList rest)
  | none => failure

/-- No character of a name follows. -/
def atNameEnd : Parser Unit := do
  match (← get).rest with
  | c :: _ => if isNameChar c then failure
  | [] => pure ()

/-- A token that is spelled `text`, whatever follows it. -/
def literal (text : String) : Parser Unit := do
  skipBlanks
  exactly text

/-- A token that is spelled `text` and that no character of a name follows. -/
def word (text : String) : Parser Unit := do
  literal text
  atNameEnd

/-- The end of the text. -/
def atEnd : Parser Unit := do
  skipBlanks
  match (← get).rest with
  | [] => pure ()
  | _ :: _ => failure

/-- Repeats a parser until it fails, at most `bound` times; `found` holds what was found before, the
    last first. -/
def repeatFrom {α : Type} (p : Parser α) : Nat → List α → Cursor → List α × Cursor
  | 0, found, c => (found.reverse, c)
  | bound + 1, found, c =>
    match p c with
    | none => (found.reverse, c)
    | some (a, c') => repeatFrom p bound (a :: found) c'

/-- As many as there are, at most `bound`. -/
def many {α : Type} (bound : Nat) (p : Parser α) : Parser (List α) :=
  fun c => some (repeatFrom p bound [] c)

/-- One or more with commas between them. -/
def separated {α : Type} (bound : Nat) (p : Parser α) : Parser (List α) := do
  let first ← p
  let more ← many bound (literal "," *> p)
  return first :: more

/-- The first of the parsers that fits. -/
def firstOf {α : Type} : List (Parser α) → Parser α
  | [] => failure
  | p :: ps => p <|> firstOf ps

end Parser

end FlatDae.Source
