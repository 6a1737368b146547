/-
Module: FlatDae.Main
Purpose: The program: reads the file named on the command line, prints the answer and leaves with
  its exit code.
Main exports: main
-/
import FlatDae.CommandLine

/-- The text of a file, or the reason why it cannot be read. -/
def readText (file : String) : IO (Except String String) := do
  try return .ok (← IO.FS.readFile file)
  catch
    | .noFileOrDirectory _ _ _ => return .error "No such file or directory (os error 2)"
    | e => return .error e.toString

/-- Answers one invocation; the exit code is that of the answer. -/
def main (args : List String) : IO UInt32 := do
  let response ← FlatDae.CommandLine.answer readText args
  IO.print response.output
  IO.eprint response.complaint
  return response.exitCode.toUInt32
