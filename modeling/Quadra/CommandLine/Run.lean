import Quadra.CommandLine.Options
import Quadra.Diagnostic.Snippet
import Quadra.Equation.Parse
import Quadra.Report.Form
import Quadra.Solution.Solve

set_option autoImplicit false

/-!
# Runs

A run explains a diagnostic code, or reads an equation and reports on it. Its outcome holds all
that is to be printed.
-/

namespace Quadra.CommandLine

/-- The exit code, the texts for the two output streams, and whether the first is shown page by
page. -/
structure Outcome where
  code : Nat
  stdout : String
  stderr : String
  paged : Bool
deriving DecidableEq

namespace Outcome

/-- The outcome of a run that prints a report. -/
def success (stdout : String) : Outcome := ⟨0, stdout, "", false⟩

/-- The outcome of a run that prints a fault. -/
def failure (stderr : String) : Outcome := ⟨1, "", stderr, false⟩

end Outcome

/-- The outcome for a diagnostic code that is to be explained. -/
def explain (name : String) : Outcome :=
  match Diagnostic.Code.ofName? name with
  | some code => ⟨0, code.explanation, "", true⟩
  | none => .failure (name ++ " is not a diagnostic code")

/-- The report on the polynomial of an equation, or on its solutions, which are logged. -/
def report {ε : Type} (options : Options) (form : Report.Form) (p : Polynomial) :
    Logged ε String := do
  let palette := if options.colour then Report.Palette.ansi else Report.Palette.plain
  let config := Report.Config.ofFlags options.flags palette
  if options.parseOnly then return p.report form config
  else
    let resolution ← p.resolve
    return resolution.report form config

/-- A run, with all that it logs. An explanation comes before all else, and an unknown form is
reported before the equation is looked at. -/
def perform (options : Options) : Logged Diagnostic.SnippetFault Outcome :=
  match options.explain with
  | some name => return explain name
  | none =>
      match Report.Form.ofName? options.form with
      | none => return .failure (Report.Form.unknownMessage options.form)
      | some form => do
          match ← (Equation.read options.equation).attempt with
          | .error fault =>
              let snippet ← .ofExcept (fault.diagnostic.snippet options.equation options.colour)
              return .failure snippet
          | .ok p =>
              let text ← report options form p
              return .success text

/-- The outcome of a run. -/
def run (options : Options) : Except Diagnostic.SnippetFault Outcome := (perform options).outcome

/-- The events of a run that its log level shows. All of them are for debugging. -/
def shownEvents (options : Options) : List Event :=
  if options.logLevel ≠ "debug" ∧ options.logLevel ≠ "trace" then [] else (perform options).events

end Quadra.CommandLine
