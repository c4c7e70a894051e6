import Quadra.Journal
import Quadra.Numeric.SquareRoot

set_option autoImplicit false

/-!
# Solving an equation

Equations up to degree two are solved in binary64 arithmetic, by the quadratic formula, by one
division, or by looking at the constant. Every case writes down its steps.
-/

namespace Quadra

open Numeric

/-- What the solving of one degree yields. -/
structure Analysis where
  kind : SolutionKind
  discriminant : Option Binary64
  solutions : List Solution
  explanation : List String

namespace Coefficients

/-! ## Degree two -/

/-- The discriminant `b² - 4ac`, evaluated from left to right. -/
def discriminant (k : Coefficients) : Binary64 := k.b * k.b - 4 * k.a * k.c

/-- The step that applies the quadratic formula: which root, with which sign, the radical as a
symbol and as a number, and the root. -/
def formulaStep (k : Coefficients) (root sign symbol radical result : String) : String :=
  root ++ " = (-b " ++ sign ++ " " ++ symbol ++ ") / 2a = (-(" ++ k.b.display ++ ") " ++ sign ++
    " " ++ radical ++ ") / (2 * (" ++ k.a.display ++ ")) = " ++ result

/-- Two real roots, the one with the positive square root first. They are rational when the
discriminant is a perfect square. -/
def realPair (k : Coefficients) (discriminant : Binary64) : Analysis :=
  let radical := sqrt discriminant
  let rational := isPerfectSquare discriminant
  let x₁ := (-k.b + radical) / (2 * k.a)
  let x₂ := (-k.b - radical) / (2 * k.a)
  let number := "√" ++ discriminant.display
  { kind := .positiveDiscriminant
    discriminant := some discriminant
    solutions := [.real ⟨x₁, rational⟩, .real ⟨x₂, rational⟩]
    explanation :=
      [ SolutionKind.positiveDiscriminant.summary,
        k.formulaStep "x₁" "+" "√Δ" number x₁.fixed,
        k.formulaStep "x₂" "-" "√Δ" number x₂.fixed ] }

/-- One real root, which is rational. -/
def doubleRoot (k : Coefficients) (discriminant : Binary64) : Analysis :=
  let x := -k.b / (2 * k.a)
  { kind := .zeroDiscriminant
    discriminant := some discriminant
    solutions := [.real ⟨x, true⟩]
    explanation :=
      [ "Discriminant is zero, the single solution is:",
        "x = -b / 2a = -(" ++ k.b.display ++ ") / (2 * (" ++ k.a.display ++ ")) = " ++ x.fixed ] }

/-- A pair of conjugate roots, the one with the positive imaginary part first. The real part is
rational, the imaginary part when the opposite of the discriminant is a perfect square. -/
def conjugatePair (k : Coefficients) (discriminant : Binary64) : Analysis :=
  let re : Root := ⟨-k.b / (2 * k.a), true⟩
  let im := abs (sqrt (-discriminant) / (2 * k.a))
  let rational := isPerfectSquare (-discriminant)
  let x₁ : Solution := .complex re ⟨im, rational⟩
  let x₂ : Solution := .complex re ⟨-im, rational⟩
  let number := "i√" ++ (-discriminant).display
  { kind := .negativeDiscriminant
    discriminant := some discriminant
    solutions := [x₁, x₂]
    explanation :=
      [ SolutionKind.negativeDiscriminant.summary,
        k.formulaStep "x₁" "+" "i√-Δ" number (x₁.text false),
        k.formulaStep "x₂" "-" "i√-Δ" number (x₂.text false) ] }

/-- The steps that every quadratic equation starts with. -/
def discriminantSteps (k : Coefficients) (discriminant : Binary64) : List String :=
  [ "This is a quadratic equation (degree 2). We use the discriminant Δ = b² - 4ac.",
    "Δ = (" ++ k.b.display ++ ")² - 4 * (" ++ k.a.display ++ ") * (" ++ k.c.display ++ ") = " ++
      discriminant.display ]

/-- Degree two: a discriminant above `epsilon` gives two real roots, one within `epsilon` of zero a
double root, and any other a conjugate pair. -/
def quadratic (k : Coefficients) : Analysis :=
  let discriminant := k.discriminant
  let analysis :=
    if epsilon < discriminant then k.realPair discriminant
    else if -epsilon ≤ discriminant then k.doubleRoot discriminant
    else k.conjugatePair discriminant
  { analysis with explanation := k.discriminantSteps discriminant ++ analysis.explanation }

/-! ## Degrees one and zero -/

/-- Degree one: the root is `-c / b`. -/
def linear (k : Coefficients) : Analysis :=
  let x := -k.c / k.b
  { kind := .linear
    discriminant := none
    solutions := [.real ⟨x, true⟩]
    explanation :=
      [ "This is a linear equation (degree 1).",
        "The solution is calculated as -c / b = -(" ++ k.c.display ++ ") / (" ++ k.b.display ++
          ") = " ++ x.fixed ] }

/-- Degree zero: the constant is zero, or there is no solution. -/
def constant (k : Coefficients) : Analysis :=
  if isSignificant k.c then
    { kind := .noSolution
      discriminant := none
      solutions := []
      explanation :=
        [ "The equation simplifies to " ++ k.c.display ++
            " = 0, which is impossible. No solution." ] }
  else
    { kind := .infiniteSolutions
      discriminant := none
      solutions := []
      explanation := ["The equation simplifies to 0 = 0. Any real number is a solution."] }

end Coefficients

/-! ## All degrees -/

/-- A degree above two is not solved. -/
def Analysis.unsupported : Analysis :=
  { kind := .unsupported
    discriminant := none
    solutions := []
    explanation := [SolutionKind.unsupported.summary] }

/-- The analysis of a polynomial by its degree. -/
def Polynomial.analysis (p : Polynomial) : Analysis :=
  match p.degree.val with
  | 0 => p.lowCoefficients.constant
  | 1 => p.lowCoefficients.linear
  | 2 => p.lowCoefficients.quadratic
  | _ => .unsupported

/-- Solve the equation of a polynomial, and log what came of it. -/
def Polynomial.resolve {ε : Type} (p : Polynomial) : Logged ε Resolution := do
  let analysis := p.analysis
  let resolution : Resolution :=
    { reducedForm := p.canonical
      degree := p.degree
      coefficients := p.lowCoefficients
      discriminant := analysis.discriminant
      kind := analysis.kind
      solutions := analysis.solutions
      explanation := analysis.explanation }
  .log (.ofResolution resolution)
  return resolution

/-- The solved equation of a polynomial. -/
def Polynomial.solve (p : Polynomial) : Resolution := Logged.value p.resolve

end Quadra
