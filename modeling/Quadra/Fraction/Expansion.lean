import Quadra.Decimal.Layout
import Quadra.Fraction.Basic

set_option autoImplicit false

/-!
# Continued fractions

A binary64 number is turned into a fraction by its continued fraction. Each term `a` advances the
convergent `h / k` by `h' = a * h + h₀` and `k' = a * k + k₀`, where `h₀ / k₀` is the convergent
before it. The expansion stops at a convergent within a relative tolerance of the number.
-/

namespace Quadra.Fraction

open Numeric

/-- Why a number has no fraction. -/
inductive Fault
  | notFinite (x : Binary64)
  | outOfRange (x : Binary64)
deriving DecidableEq

/-- The sentence that reports a fault. -/
def Fault.message : Fault → String
  | .notFinite x => .ofList (Layout.display.write x) ++ " has no fractional representation"
  | .outOfRange x =>
      "the fractional representation of " ++ .ofList (Layout.display.write x) ++
        " does not fit in 64 bits"

/-! ## Convergents -/

/-- Two successive convergents, the newer one `h / k`, and the number still to expand. -/
structure Convergents where
  h : Binary64
  h₀ : Binary64
  k : Binary64
  k₀ : Binary64
  rest : Binary64

/-- The convergents in front of the first term. -/
def Convergents.start (x : Binary64) : Convergents := ⟨1, 0, 0, 1, x⟩

/-- The convergents one term further. -/
def Convergents.advance (c : Convergents) : Convergents :=
  let a := floor c.rest
  ⟨a * c.h + c.h₀, c.h, a * c.k + c.k₀, c.k, c.rest - a⟩

/-- The convergents of `x` after at most this many terms: it stops once `h / k` is within
`x * tolerance` of `x`, or nothing is left to expand. -/
def expand (x tolerance : Binary64) : Nat → Convergents → Convergents
  | 0, c => c
  | terms + 1, c =>
      let c := c.advance
      if abs (x - c.h / c.k) ≤ x * tolerance then c
      else if c.rest.isZero then c
      else expand x tolerance terms { c with rest := 1 / c.rest }

/-! ## Conversion -/

/-- The first integer that does not fit in the parts of a fraction, `2 ^ 63`. -/
def limit : Binary64 := 9223372036854775808

/-- The fraction of a number: the nearest integer where that is within the tolerance, else the
convergent at which the expansion of `|x|` stops, with the sign of `x`. -/
def approximate (x tolerance : Binary64) (terms : Nat) : Except Fault Fraction :=
  if !x.isFinite then .error (.notFinite x)
  else
    let rounded := round x
    if abs (x - rounded) < tolerance then
      if limit ≤ abs rounded then .error (.outOfRange x)
      else .ok (ofInteger rounded.toInt64)
    else
      let c := expand (abs x) tolerance terms (.start (abs x))
      if limit ≤ c.h || limit ≤ c.k then .error (.outOfRange x)
      else
        let sign : Int64 := if x < 0 then -1 else 1
        .ok (reduce (sign * c.h.toInt64) c.k.toUInt64)

/-- The number of terms after which an expansion ends. -/
def maxTerms : Nat := 25

/-- The fraction of a number within a relative tolerance of `epsilon`. -/
def ofNumber (x : Binary64) : Except Fault Fraction := approximate x epsilon maxTerms

end Quadra.Fraction
