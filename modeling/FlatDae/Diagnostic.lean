/-
Module: FlatDae.Diagnostic
Purpose: Problems reported against a text. Places are byte offsets; for the reader they become lines
  and columns, both counted from one, columns in characters. A place that is not one of the text is
  left out of the message.
Main exports: Position.ofOffset?, Span, Diagnostic, Diagnostic.locate, Diagnostic.report
-/

namespace FlatDae

/-- A place as a reader counts it. -/
structure Position where
  line : Nat := 1
  column : Nat := 1
deriving DecidableEq, Repr

namespace Position

/-- The position behind a character. Only a line feed starts a new line. -/
def after (p : Position) (c : Char) : Position :=
  if c == '\n' then { line := p.line + 1, column := 1 } else { p with column := p.column + 1 }

/-- The position `offset` bytes further on, if a character starts or the text ends there. -/
def forward? (p : Position) : List Char → Nat → Option Position
  | _, 0 => some p
  | [], _ + 1 => none
  | c :: rest, offset + 1 =>
    if c.utf8Size ≤ offset + 1 then (p.after c).forward? rest (offset + 1 - c.utf8Size) else none

/-- The position of a byte offset in a text. -/
def ofOffset? (text : String) (offset : Nat) : Option Position :=
  ({} : Position).forward? text.toList offset

end Position

/-- The bytes from `start` up to `stop`. -/
structure Span where
  start : Nat
  stop : Nat
deriving DecidableEq, Repr, Inhabited

/-- The position at which a span of a text starts; none if it is not a range of whole characters. -/
def Span.position? (span : Span) (text : String) : Option Position :=
  if span.start ≤ span.stop && (Position.ofOffset? text span.stop).isSome then
    Position.ofOffset? text span.start
  else none

/-- A problem in words, with its place if it has one. -/
structure Diagnostic where
  text : String
  span : Option Span := none
deriving DecidableEq, Repr, Inhabited

namespace Diagnostic

/-- The problem with its place in lines and columns of the text it was found in. -/
def locate (source : String) (d : Diagnostic) : String :=
  match d.span.bind (·.position? source) with
  | some p => s!"Line {p.line}, Column {p.column}: Error: " ++ d.text
  | none => "Error: " ++ d.text

/-- The problem with its place in bytes. -/
def print (d : Diagnostic) : String :=
  match d.span with
  | some span => s!"({span.start}, {span.stop}): Error: " ++ d.text
  | none => "Error: " ++ d.text

/-- All problems, located in the text, one to a line below an empty line. -/
def report (source : String) (ds : List Diagnostic) : String :=
  "\n" ++ String.join (ds.map fun d => d.locate source ++ "\n")

/-- All problems with their bytes, one to a line. -/
def printAll (ds : List Diagnostic) : String := String.join (ds.map fun d => d.print ++ "\n")

/-- Whether the words of some problem contain `part`. -/
def anyContains (ds : List Diagnostic) (part : String) : Bool :=
  ds.any fun d => d.text.contains part

end Diagnostic

end FlatDae
