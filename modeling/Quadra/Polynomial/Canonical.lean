import Quadra.Decimal.Layout
import Quadra.Polynomial.Basic

set_option autoImplicit false

/-!
# Canonical form

The text of a polynomial as an equation, `c₀ * X^0 + c₁ * X^1 … = 0`, in ascending powers. A
coefficient is written with its magnitude, and its sign stands in front of the term.
-/

namespace Quadra.Polynomial

open Numeric

/-- The magnitude of a coefficient and its power. -/
def termText (entry : Power × Binary64) : String :=
  (abs entry.2).display ++ " * X^" ++ toString entry.1.val

/-- The sign in front of the first term. -/
def leadingSign (c : Binary64) : String := if c < 0 then "- " else ""

/-- The sign between a term and the one before it. -/
def separator (c : Binary64) : String := if 0 < c then " + " else " - "

/-- The canonical form of a list of terms. -/
def canonicalTerms : List (Power × Binary64) → String
  | [] => "0 = 0"
  | first :: rest =>
      leadingSign first.2 ++ termText first ++
        .join (rest.map fun entry => separator entry.2 ++ termText entry) ++ " = 0"

/-- The canonical form; a polynomial without terms is `0 = 0`. -/
def canonical (p : Polynomial) : String := canonicalTerms p.coefficients.entries

end Quadra.Polynomial
