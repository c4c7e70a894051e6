import Quadra.Polynomial.Canonical
import Quadra.Report.Dump
import Quadra.Report.Palette

set_option autoImplicit false

/-!
# Report forms

A polynomial and a solved equation in each of four forms: `pretty` for reading, `verbose` with the
steps of the solution, `json` for programs, and `debug` with all internal fields. Colours and
fractions are chosen by a `Config`.
-/

namespace Quadra.Report

/-! ## Choices -/

/-- The forms of a report. -/
inductive Form
  | pretty
  | verbose
  | json
  | debug
deriving DecidableEq

namespace Form

/-- The form of a name. Names are in lower case. -/
def ofName? : String → Option Form
  | "pretty" => some .pretty
  | "verbose" => some .verbose
  | "json" => some .json
  | "debug" => some .debug
  | _ => none

/-- The sentence that reports an unknown name. -/
def unknownMessage (name : String) : String := name ++ " is not an emit format"

end Form

/-- The choices that a report leaves open. -/
structure Config where
  /-- Whether rational solutions are shown as fractions. -/
  fractions : Bool
  palette : Palette
deriving DecidableEq

/-- The choices that a list of flags makes; only `frac` has a meaning. -/
def Config.ofFlags (flags : List String) (palette : Palette) : Config :=
  ⟨flags.contains "frac", palette⟩

/-! ## Lines of a report -/

/-- The lines that every readable report starts with. -/
def header (palette : Palette) (reducedForm : String) (degree : Power) : List String :=
  [ "Reduced form: " ++ palette.paint palette.green reducedForm,
    "Polynomial degree: " ++ palette.paint palette.yellow (toString degree.val) ]

/-- The lines as one text, without a line break at its end. -/
def joinLines (lines : List String) : String := "\n".intercalate lines

end Report

open Report

/-! ## Polynomials -/

namespace Polynomial

/-- The reduced form and the degree. -/
def reportPretty (p : Polynomial) (config : Config) : String :=
  joinLines (header config.palette p.canonical p.degree)

/-- The pretty report and a line for each coefficient. -/
def reportVerbose (p : Polynomial) (config : Config) : String :=
  let coefficientLines := p.coefficients.entries.map fun entry =>
    "Coefficient of X^" ++ toString entry.1.val ++ ": " ++ entry.2.display
  joinLines (header config.palette p.canonical p.degree ++ coefficientLines)

/-- The record of a polynomial. The keys of its coefficients are their powers. -/
def json (p : Polynomial) : Json :=
  let members := p.coefficients.entries.map fun entry =>
    (toString entry.1.val, Json.number entry.2)
  .object
    [ ("reducedForm", .text p.canonical),
      ("degree", .integer p.degree.val),
      ("coefficients", .object members) ]

/-- The report on a polynomial. -/
def report (p : Polynomial) (form : Form) (config : Config) : String :=
  match form with
  | .pretty => p.reportPretty config
  | .verbose => p.reportVerbose config
  | .json => p.json.pretty
  | .debug => (polynomialOutline p).dump

end Polynomial

/-! ## Solved equations -/

/-- Real solutions are numbers, complex ones are texts. -/
def Solution.json (number : Binary64 → Json) (solution : Solution) : Json :=
  match solution with
  | .real root => number root.value
  | .complex _ _ => .text (solution.text false)

namespace Resolution

/-- The sentence in front of the solutions, in red where there are none to find. -/
def summaryLine (r : Resolution) (palette : Palette) : String :=
  match r.kind with
  | .unsupported => palette.paint palette.red r.kind.summary
  | .noSolution => palette.paint palette.red r.kind.summary
  | _ => r.kind.summary

/-- The reduced form, the degree, the classification and the solutions, one a line. -/
def reportPretty (r : Resolution) (config : Config) : String :=
  let solutionLines := r.solutions.map fun solution =>
    config.palette.paint config.palette.cyan (solution.text config.fractions)
  joinLines (header config.palette r.reducedForm r.degree ++
    r.summaryLine config.palette :: solutionLines)

/-- The steps of the solution, and the solutions in one line. -/
def reportVerbose (r : Resolution) (config : Config) : String :=
  let solutionTexts := r.solutions.map (Solution.text config.fractions)
  let solutionLines :=
    if r.solutions.isEmpty then []
    else
      [ "Solutions: " ++
          config.palette.paint config.palette.cyan (", ".intercalate solutionTexts) ]
  joinLines (header config.palette r.reducedForm r.degree ++ r.explanation ++ solutionLines)

/-- The members of the record of a solved equation, by what becomes of its numbers. -/
def members (number : Binary64 → Json) (r : Resolution) : List (String × Json) :=
  [ ("reducedForm", .text r.reducedForm),
    ("degree", .integer r.degree.val),
    ("coefficients", .object
      [ ("a", number r.coefficients.a),
        ("b", number r.coefficients.b),
        ("c", number r.coefficients.c) ]),
    ("discriminant", (r.discriminant.map number).getD .null),
    ("solutionType", .text r.kind.name),
    ("solutions", .array (r.solutions.map (Solution.json number))),
    ("explanation", .array (r.explanation.map .text)) ]

/-- The record of a solved equation. For fractions it is kept as a value first, in which the solutions are
replaced by their texts. -/
def json (r : Resolution) (fractions : Bool) : Json :=
  if fractions then
    let texts := r.solutions.map fun solution => Json.text (solution.text true)
    .object (Json.replace "solutions" (.array texts) (r.members Json.ofNumber))
  else .object (r.members .number)

/-- The report on a solved equation. -/
def report (r : Resolution) (form : Form) (config : Config) : String :=
  match form with
  | .pretty => r.reportPretty config
  | .verbose => r.reportVerbose config
  | .json => (r.json config.fractions).pretty
  | .debug => (resolutionOutline r).dump

/-- A solved equation as it shows itself: the pretty report, plain and in decimals. -/
def display (r : Resolution) : String := r.reportPretty ⟨false, .plain⟩

end Resolution

end Quadra
