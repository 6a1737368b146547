/-
Module: FlatDae.CommandLine
Purpose: The command line: `FILE [-r|--residuals] [-p|--parameters] [-k|--kind KIND] [-c|--check]`,
  or a request for help or the version. Every option may be given once, anywhere among the
  arguments; short options may be written together, a value may be attached, and after `--` nothing
  is an option. Arguments are read in order, and the first that is wrong or asks for help settles
  it.
Main exports: CommandLine, CommandLine.parse, Response, CommandLine.respond, CommandLine.answer
-/
import FlatDae.Elaboration.Model
import FlatDae.Model.Parameters
import FlatDae.Model.Print

namespace FlatDae

/-- What the arguments ask for. -/
structure CommandLine where
  file : Option String := none
  /-- Whether the residuals are printed. -/
  residuals : Bool := false
  /-- Whether the values of all constants and parameters are found and printed. -/
  parameters : Bool := false
  /-- The kind of the variables to print in place of the whole model. -/
  kind : Option String := none
  /-- Whether it is only checked that the text has a model. -/
  check : Bool := false
deriving DecidableEq, Repr, Inhabited

/-- Why arguments are not read to their end. -/
inductive Stop where
  | wrongUsage
  /-- The options are to be described. -/
  | help
  /-- The program is to give its version. -/
  | version
deriving DecidableEq, Repr

namespace CommandLine

/-- The options that take no value. -/
inductive Flag where
  | residuals
  | parameters
  | check
deriving DecidableEq, Repr

/-- An option: a flag, the kind, which takes a value, or one that settles what is done. -/
inductive Switch where
  | flag (f : Flag)
  | kind
  | stop (s : Stop)
deriving DecidableEq, Repr

/-- The option of a letter. -/
def ofLetter? : Char → Option Switch
  | 'r' => some (.flag .residuals)
  | 'p' => some (.flag .parameters)
  | 'c' => some (.flag .check)
  | 'k' => some .kind
  | 'h' => some (.stop .help)
  | 'V' => some (.stop .version)
  | _ => none

/-- The option of a word. -/
def ofWord? : String → Option Switch
  | "residuals" => some (.flag .residuals)
  | "parameters" => some (.flag .parameters)
  | "check" => some (.flag .check)
  | "kind" => some .kind
  | "help" => some (.stop .help)
  | "version" => some (.stop .version)
  | _ => none

/-- Sets a flag that is not set yet. -/
def setFlag (line : CommandLine) : Flag → Except Stop CommandLine
  | .residuals =>
    if line.residuals then .error .wrongUsage else .ok { line with residuals := true }
  | .parameters =>
    if line.parameters then .error .wrongUsage else .ok { line with parameters := true }
  | .check => if line.check then .error .wrongUsage else .ok { line with check := true }

/-- Sets the kind if it is not set yet. -/
def setKind (line : CommandLine) (name : String) : Except Stop CommandLine :=
  if line.kind.isSome then .error .wrongUsage else .ok { line with kind := some name }

/-- Sets the file if it is not set yet. -/
def setFile (line : CommandLine) (name : String) : Except Stop CommandLine :=
  if line.file.isSome then .error .wrongUsage else .ok { line with file := some name }

/-- An argument that looks like an option, so that it is no value; a single hyphen does not. -/
def looksLikeOption (arg : String) : Bool := arg.startsWith "-" && arg != "-"

/-- Reads the letters of an argument such as `-rp`. The letter `k` takes what follows it as its
    value, less an equals sign in front; if nothing does, the value is still to come, which is said
    by the second component. -/
def readLetters (line : CommandLine) : List Char → Except Stop (CommandLine × Bool)
  | [] => .ok (line, false)
  | c :: rest =>
    match ofLetter? c with
    | none => .error .wrongUsage
    | some (.stop s) => .error s
    | some (.flag f) => do (← line.setFlag f).readLetters rest
    | some .kind =>
      match rest with
      | [] => .ok (line, true)
      | '=' :: value => (line.setKind (String.ofList value)).map (·, false)
      | value => (line.setKind (String.ofList value)).map (·, false)

/-- Reads an argument such as `--kind` or `--kind=NAME`, without its hyphens. -/
def readWord (line : CommandLine) (text : List Char) : Except Stop (CommandLine × Bool) :=
  let word := String.ofList (text.takeWhile (· != '='))
  match ofWord? word, text.dropWhile (· != '=') with
  | some (.stop s), [] => .error s
  | some (.flag f), [] => (line.setFlag f).map (·, false)
  | some .kind, [] => .ok (line, true)
  | some .kind, _ :: value => (line.setKind (String.ofList value)).map (·, false)
  | _, _ => .error .wrongUsage

mutual

/-- Reads the remaining arguments. -/
def readArguments (line : CommandLine) : List String → Except Stop CommandLine
  | [] => .ok line
  | arg :: rest =>
    if arg == "--" then rest.foldlM setFile line
    else
      match arg.toList with
      | '-' :: '-' :: word => do
        let (line, valueToCome) ← line.readWord word
        if valueToCome then line.readKind rest else line.readArguments rest
      | '-' :: c :: letters => do
        let (line, valueToCome) ← line.readLetters (c :: letters)
        if valueToCome then line.readKind rest else line.readArguments rest
      | _ => do (← line.setFile arg).readArguments rest

/-- Reads the value of the kind and then the remaining arguments. -/
def readKind (line : CommandLine) : List String → Except Stop CommandLine
  | [] => .error .wrongUsage
  | value :: rest =>
    if looksLikeOption value then .error .wrongUsage
    else do (← line.setKind value).readArguments rest

end

/-- The file and what is asked for about it. -/
def parse (args : List String) : Except Stop (String × CommandLine) := do
  let line ← readArguments {} args
  match line.file with
  | some file => return (file, line)
  | none => throw .wrongUsage

end CommandLine

/-- What a run prints, what it says on the error stream, and whether it succeeds. -/
structure Response where
  output : String := ""
  complaint : String := ""
  exitCode : Nat := 0
deriving DecidableEq, Repr, Inhabited

namespace Response

/-- The exit code of a run that fails. -/
def failureCode : Nat := 1

/-- The exit code of a run with wrong arguments. -/
def usageCode : Nat := 2

/-- The exit code of a run broken off by a number that does not fit. -/
def brokenOffCode : Nat := 101

/-- Text with every line moved to the right. -/
def indent (text : String) : String :=
  "\n".intercalate ((text.splitOn "\n").map ("    " ++ ·))

/-- A failure after `output` was printed. -/
def failure (output message : String) : Response :=
  { output, complaint := "Error: " ++ message ++ "\n", exitCode := failureCode }

/-- A failure with what it comes from. -/
def failureBecause (message cause : String) : Response :=
  failure "" (message ++ "\n\nCaused by:\n" ++ indent cause)

end Response

/-! ### Help -/

/-- The name that the program goes by. -/
def programName : String := "daeir"

/-- How the program is called. -/
def usageLine : String := "Usage: " ++ programName ++ " [OPTIONS] <INPUT>\n"

/-- What the program does and which options it has. -/
def helpText : String :=
  "A typed intermediate representation for differential-algebraic equation (DAE) models.\n\n" ++
    usageLine ++ "\n" ++
    "Arguments:\n" ++
    "  <INPUT>  Input filename\n\n" ++
    "Options:\n" ++
    "  -r, --residuals    Print the initial and DAE residuals\n" ++
    "  -p, --parameters   Resolve and print the values of all constants and parameters\n" ++
    "  -k, --kind <KIND>  Only list the variables of this kind (e.g. REAL_ALGEBRAIC)\n" ++
    "  -c, --check        Only check that the model builds\n" ++
    "  -h, --help         Print help\n" ++
    "  -V, --version      Print version\n"

/-- Answers for arguments that name nothing to be done about a file. Help and the version are asked
    for and therefore no failure. -/
def Stop.respond : Stop → Response
  | .wrongUsage =>
    { complaint := usageLine ++ "\nFor more information, try '--help'.\n"
      exitCode := Response.usageCode }
  | .help => { output := helpText }
  | .version => { output := programName ++ " 0.1.0\n" }

/-! ### Models -/

namespace CommandLine

/-- Prints the variables of a kind, one after the other, or the whole model. A kind that is none is
    given back. -/
def listing (line : CommandLine) (m : Model) : Except String String :=
  match line.kind with
  | none => .ok m.print
  | some name =>
    match VariableKind.ofName? name with
    | none => .error name
    | some kind =>
      .ok (String.join ((m.variablesOfKind kind).map fun v => Model.line (m.store.print v)))

/-- Both residuals, if they are asked for. -/
def residualLines (line : CommandLine) (m : Model) : String :=
  if line.residuals then
    Model.line ("initial residual: " ++ m.initialResidual.1.print) ++
      Model.line ("DAE residual: " ++ m.daeResidual.1.print)
  else ""

/-- The values of a table, one to a line. -/
def valueLines (table : ParameterTable) : String :=
  String.join (table.rows.toList.map fun (node, value) =>
    Model.line (node.print ++ " = " ++ Decimal.text value))

/-- Answers for a model. What is printed before a failure stays. -/
def respondForModel (line : CommandLine) (file : String) (m : Model) : Response :=
  if line.check then { output := Model.line (file ++ ": ok") }
  else
    match line.listing m with
    | .error kind => .failure "" ("unknown variable kind " ++ kind)
    | .ok listing =>
      let output := listing ++ line.residualLines m
      if line.parameters then
        match Model.calculate.run m with
        | .ok () m => { output := output ++ valueLines m.parameters }
        | .error e _ => .failure output e.message
      else { output }

/-- Answers for the text of the file, or with the reason why the file cannot be read. -/
def respond (line : CommandLine) (file : String) (content : Except String String) : Response :=
  match content with
  | .error reason => .failureBecause ("cannot read " ++ file) reason
  | .ok text =>
    match Model.ofText text with
    | .ok m => line.respondForModel file m
    | .error (.unread .outputTooLarge) =>
      { complaint := "an output number does not fit into 64 bits\n"
        exitCode := Response.brokenOffCode }
    | .error (.unread .malformed) =>
      .failureBecause ("cannot build model from " ++ file) "the text does not follow the grammar"
    | .error (.faulty problems) =>
      .failureBecause ("cannot build model from " ++ file) (faultReport text problems)

/-- Answers for the arguments of a run. The file is read with `content`, and only if there is
    something to be done about it. -/
def answer {m : Type → Type} [Monad m] (content : String → m (Except String String))
    (args : List String) : m Response :=
  match parse args with
  | .error stop => pure stop.respond
  | .ok (file, line) => return line.respond file (← content file)

end CommandLine

end FlatDae
