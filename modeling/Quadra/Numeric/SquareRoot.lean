import Quadra.Numeric.Floor

set_option autoImplicit false

/-!
# Square roots

A square root is approached by a fixed number of Newton steps, each of which takes the mean of the
guess and its cofactor. A number is a perfect square when the root found is an integer up to
`epsilon`.
-/

namespace Quadra.Numeric

/-- The number of Newton steps. -/
def refinements : Nat := 20

/-- The mean of a guess at the square root of `x` and its cofactor. -/
def refine (x guess : Binary64) : Binary64 := (guess + x / guess) / 2

/-- The square root, from the guess `x / 2`; `nan` below zero. -/
def sqrt (x : Binary64) : Binary64 :=
  if x < 0 then .nan
  else if x.isZero then 0
  else Nat.repeat (refine x) refinements (x / 2)

/-- Whether `n` is the square of an integer, up to `epsilon`. -/
def isPerfectSquare (n : Binary64) : Bool :=
  if n < 0 then false
  else
    let root := sqrt n
    abs (root - round root) < epsilon

end Quadra.Numeric
