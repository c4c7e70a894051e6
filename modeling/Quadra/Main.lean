import Quadra.CommandLine.Run

set_option autoImplicit false

/-!
# The program

Reads the command line, runs it, and prints what is logged and what comes of the run. Colours are
used where both output streams are terminals. A command line that is not run has no text here.
-/

open Quadra.CommandLine

/-- Print a text that is not empty, and a line break behind it. -/
def printLine (stream : IO.FS.Stream) (text : String) : IO Unit := do
  unless text.isEmpty do
    stream.putStrLn text
    stream.flush

/-- An event in one line: its level and message, and its fields. -/
def eventLine (event : Quadra.Event) : String :=
  " ".intercalate (event.level :: event.message :: event.fields.map fun f => f.1 ++ "=" ++ f.2)

/-- Run the command line and print what comes of it. -/
def main (arguments : List String) : IO UInt32 := do
  let stdout ← IO.getStdout
  let stderr ← IO.getStderr
  let colour := (← stdout.isTty) && (← stderr.isTty)
  match Options.ofArguments arguments colour with
  | .error .helpRequested => return 0
  | .error .versionRequested => return 0
  | .error _ => return 1
  | .ok options =>
      for event in shownEvents options do
        printLine stderr (eventLine event)
      match run options with
      | .error .spanOutsideSource =>
          printLine stderr "\nnote: you found an internal computor error!"
          printLine stderr "\nnote: please file a bug report with the equation that caused it"
          return 2
      | .ok outcome =>
          printLine stderr outcome.stderr
          printLine stdout outcome.stdout
          return .ofNat outcome.code
