set_option autoImplicit false

/-!
# Diagnostic codes

Every diagnostic has a code, and every code a long explanation.
-/

namespace Quadra.Diagnostic

/-- The codes: of an equation without exactly one `=`, and of a term that cannot be read. -/
inductive Code
  | format
  | term
deriving DecidableEq

namespace Code

/-- The code as it is printed and asked for. -/
def name : Code → String
  | .format => "P0001"
  | .term => "P0002"

/-- The lines of the explanation of an equation without exactly one `=`. -/
def formatLines : List String :=
  [ "An equation must contain exactly one `=` separating its left and right sides.",
    "",
    "This error fires when the `=` is missing, as in",
    "",
    "```text",
    "5 * X^0 + 4 * X^1",
    "```",
    "",
    "or when there is more than one, as in",
    "",
    "```text",
    "X^2 = 4 = 2 * X",
    "        ^- second `=`",
    "```",
    "",
    "An expression with no right side can be written as an equation with `= 0`." ]

/-- The lines of the explanation of a term that cannot be read. -/
def termLines : List String :=
  [ "Each side of an equation is a sum of terms. A term has the form",
    "",
    "```text",
    "[sign] [coefficient] [*] [X[^power]]",
    "```",
    "",
    "where at least one of the coefficient and the variable is present. The variable may be",
    "written `X` or `x`, and its power must be a non-negative integer. The following are all",
    "valid terms:",
    "",
    "```text",
    "5 * X^0    4*X    -X^2    .5x    3",
    "```",
    "",
    "This error fires on terms that do not have that form, for example",
    "",
    "```text",
    "2 * y = 0      - `y` is not the variable",
    "X^2.5 = 1      - powers must be integers",
    "5 * = 2        - `*` must be followed by the variable",
    "X^2 =          - the right side has no terms",
    "```" ]

/-- The explanation of a code, each line of which ends in a line break. -/
def explanation (code : Code) : String :=
  let lines := match code with
    | .format => formatLines
    | .term => termLines
  .join (lines.map (· ++ "\n"))

/-- All codes, in the order of their names. -/
def all : List Code := [.format, .term]

/-- The code of a name. -/
def ofName? (name : String) : Option Code := all.find? fun code => code.name == name

end Code

end Quadra.Diagnostic
