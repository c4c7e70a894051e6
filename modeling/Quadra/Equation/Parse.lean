import Quadra.Equation.Scan
import Quadra.Journal

set_option autoImplicit false

/-!
# Reading an equation

An equation is reduced by moving every term to the left side and adding up the coefficients of
each power, in the order of the terms. The first fault ends the reading.
-/

namespace Quadra.Equation

/-- The sum of the coefficients of each power. -/
abbrev Sums := PowerMap Binary64

/-- The sums with one more monomial. A power that occurs first starts from zero. -/
def addMonomial (sums : Sums) (monomial : Monomial) : Sums :=
  sums.insert monomial.power ((sums.find? monomial.power).getD 0 + monomial.coefficient)

/-- Add one term of a side. A sum that is not finite any more is a flaw of the term. -/
def addTerm (source : List Char) (side : Side) (sums : Sums) (term : List Token) :
    Logged Fault Sums := do
  let span := spanOf term
  let fault := fun flaw => Fault.term (span.slice source) flaw span
  match readTerm side term with
  | .error flaw => .fail (fault flaw)
  | .ok monomial =>
      .log (.term side monomial)
      let sums := addMonomial sums monomial
      if ((sums.find? monomial.power).getD 0).isFinite then return sums
      else .fail (fault (.tooLarge monomial.power))

/-- Add the terms of a side, from left to right. -/
def addTerms (source : List Char) (side : Side) : Sums → List (List Token) → Logged Fault Sums
  | sums, [] => return sums
  | sums, term :: terms => do
      let sums ← addTerm source side sums term
      addTerms source side sums terms

/-- Add a side, which must have a token. -/
def addSide (source : List Char) (side : Side) (sums : Sums) (equals : Token)
    (tokens : List Token) : Logged Fault Sums :=
  if tokens.isEmpty then .fail (.term [] (.emptySide side) equals.span)
  else addTerms source side sums (splitTerms tokens)

/-- The polynomial of an equation given by its tokens. -/
def reduce (source : List Char) (tokens : List Token) : Logged Fault Polynomial :=
  let isEquals := fun (token : Token) => token.kind == .equals
  match tokens.filter isEquals with
  | [] => .fail (.format 0 ⟨0, Text.byteLength source⟩)
  | [equals] => do
      let left := tokens.takeWhile (!isEquals ·)
      let right := (tokens.dropWhile (!isEquals ·)).drop 1
      let sums ← addSide source .left .empty equals left
      let sums ← addSide source .right sums equals right
      let p := Polynomial.ofCoefficients sums
      .log (.reduced p)
      return p
  | first :: second :: rest => .fail (.format (first :: second :: rest).length second.span)

/-- Read an equation, and log the terms on the way. -/
def read (source : String) : Logged Fault Polynomial :=
  reduce source.toList ((scan source).filter fun token => token.kind != .finish)

/-- The polynomial of an equation, or its first fault. -/
def parse (source : String) : Except Fault Polynomial := (read source).outcome

end Quadra.Equation
