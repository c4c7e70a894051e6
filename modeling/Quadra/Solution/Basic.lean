import Quadra.Decimal.Fixed
import Quadra.Fraction.Expansion
import Quadra.Polynomial.Basic

set_option autoImplicit false

/-!
# Solutions

What is known about a solved equation: how it was classified, its solutions, real or complex, and
the lines that explain how they were found.
-/

namespace Quadra

/-! ## Classification -/

/-- How an equation is classified: by its degree, and for degree two by the sign of its
discriminant, for degree zero by whether its constant is zero. -/
inductive SolutionKind
  | unsupported
  | positiveDiscriminant
  | zeroDiscriminant
  | negativeDiscriminant
  | linear
  | noSolution
  | infiniteSolutions
deriving DecidableEq

namespace SolutionKind

/-- The name of the kind in dumps, records and event logs. -/
def name : SolutionKind → String
  | .unsupported => "Unsupported"
  | .positiveDiscriminant => "PositiveDiscriminant"
  | .zeroDiscriminant => "ZeroDiscriminant"
  | .negativeDiscriminant => "NegativeDiscriminant"
  | .linear => "Linear"
  | .noSolution => "NoSolution"
  | .infiniteSolutions => "InfiniteSolutions"

/-- The sentence that stands in front of the solutions. -/
def summary : SolutionKind → String
  | .unsupported => "The polynomial degree is strictly greater than 2, I can't solve."
  | .positiveDiscriminant => "Discriminant is strictly positive, the two solutions are:"
  | .zeroDiscriminant => "Discriminant is zero, the solution is:"
  | .negativeDiscriminant => "Discriminant is strictly negative, the two complex solutions are:"
  | .linear => "The solution is:"
  | .noSolution => "No solution."
  | .infiniteSolutions => "Any real number is a solution."

end SolutionKind

/-! ## Roots -/

/-- A real number, and whether it is known to be rational. -/
structure Root where
  value : Binary64
  rational : Bool
deriving DecidableEq

/-- The text of a root: a fraction where fractions are asked for and the root is rational and has
one, else a decimal. -/
def Root.text (fractions : Bool) (root : Root) : String :=
  if fractions && root.rational then
    match Fraction.ofNumber root.value with
    | .ok fraction => fraction.text
    | .error _ => root.value.display
  else root.value.display

/-- A real solution, or a complex one with its real and imaginary parts. -/
inductive Solution
  | real (root : Root)
  | complex (re im : Root)
deriving DecidableEq

/-- The text of a solution. Without fractions the parts of a complex one have six decimals. -/
def Solution.text (fractions : Bool) : Solution → String
  | .real root => root.text fractions
  | .complex re im =>
      let sign := if im.value < 0 then "-" else "+"
      let magnitude : Root := ⟨Numeric.abs im.value, im.rational⟩
      let part := fun (root : Root) => if fractions then root.text true else root.value.fixed
      part re ++ " " ++ sign ++ " i * " ++ part magnitude

/-! ## Solved equations -/

/-- The coefficients of `a X^2 + b X + c`. -/
structure Coefficients where
  a : Binary64
  b : Binary64
  c : Binary64
deriving DecidableEq

/-- The coefficients of the powers up to two. -/
def Polynomial.lowCoefficients (p : Polynomial) : Coefficients :=
  ⟨p.coefficient .two, p.coefficient .one, p.coefficient .zero⟩

/-- A solved equation. -/
structure Resolution where
  reducedForm : String
  degree : Power
  coefficients : Coefficients
  discriminant : Option Binary64
  kind : SolutionKind
  solutions : List Solution
  explanation : List String
deriving DecidableEq

end Quadra
