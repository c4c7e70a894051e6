import Quadra.Report.Json
import Quadra.Solution.Basic

set_option autoImplicit false

/-!
# Dumps

The internal form of a polynomial and of a solved equation, with every field by its name: four
blanks a level, one field or item a line.
-/

namespace Quadra.Report

namespace Outline

/-- A value with named fields. -/
def record (name : String) (fields : List (String × Outline)) : Outline :=
  .group (name ++ " \x7b") (fields.map fun field => (field.1 ++ ": ", field.2)) "\x7d"

/-- A value with one field that has no name. -/
def wrapped (name : String) (item : Outline) : Outline := .group (name ++ "(") [("", item)] ")"

/-- A list, one item a line. -/
def list (items : List Outline) : Outline := .group "[" (items.map fun item => ("", item)) "]"

/-- A number in its dumped form. -/
def number (x : Binary64) : Outline := .leaf x.inspect

/-- A text in quotes. -/
def quoted (s : String) : Outline := .leaf (Json.quote s)

/-- A value that may be missing. -/
def optional : Option Outline → Outline
  | some item => .wrapped "Some" item
  | none => .leaf "None"

/-- The text of a dump. -/
def dump (outline : Outline) : String := outline.text ⟨4, true⟩

end Outline

/-! ## Dumped values -/

/-- The dump of a root. -/
def rootOutline (root : Root) : Outline :=
  .record "Root" [("value", .number root.value), ("rational", .leaf (toString root.rational))]

/-- The dump of a solution. -/
def solutionOutline : Solution → Outline
  | .real root => .wrapped "Real" (rootOutline root)
  | .complex re im => .record "Complex" [("re", rootOutline re), ("im", rootOutline im)]

/-- The dump of a polynomial: its coefficients by their powers, and its degree. -/
def polynomialOutline (p : Polynomial) : Outline :=
  let entries := p.coefficients.entries.map fun entry =>
    (toString entry.1.val ++ ": ", Outline.number entry.2)
  .record "Polynomial"
    [("coefficients", .group "\x7b" entries "\x7d"), ("degree", .leaf (toString p.degree.val))]

/-- The dump of a solved equation, field by field. -/
def resolutionOutline (r : Resolution) : Outline :=
  .record "SolveResult"
    [ ("reduced_form", .quoted r.reducedForm),
      ("degree", .leaf (toString r.degree.val)),
      ("coefficients", .record "Coefficients"
        [ ("a", .number r.coefficients.a),
          ("b", .number r.coefficients.b),
          ("c", .number r.coefficients.c) ]),
      ("discriminant", .optional (r.discriminant.map .number)),
      ("solution_type", .leaf r.kind.name),
      ("solutions", .list (r.solutions.map solutionOutline)),
      ("explanation", .list (r.explanation.map .quoted)) ]

end Quadra.Report
