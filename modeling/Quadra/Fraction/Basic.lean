import Quadra.Numeric.Gcd

set_option autoImplicit false

/-!
# Fractions

A fraction of a signed 64-bit numerator and an unsigned 64-bit denominator, in lowest terms as
far as the numerator can be divided in signed words.
-/

namespace Quadra

/-- A numerator over a denominator. -/
structure Fraction where
  numer : Int64
  denom : UInt64
deriving DecidableEq

namespace Fraction

/-- The fraction `numer / denom` in lowest terms. A zero denominator counts as one. The numerator
is divided as a signed word, in which a divisor of `2 ^ 63` is `-2 ^ 63`. -/
def reduce (numer : Int64) (denom : UInt64) : Fraction :=
  let denom := if denom = 0 then 1 else denom
  let divisor := Numeric.wordGcd (.ofNat numer.toInt.natAbs) denom
  ⟨numer / divisor.toInt64, denom / divisor⟩

/-- An integer as a fraction. -/
def ofInteger (n : Int64) : Fraction := reduce n 1

/-- Whether the denominator is one. -/
def isInteger (f : Fraction) : Bool := f.denom == 1

/-- The text `p/q`, or `p` where the denominator is one. -/
def text (f : Fraction) : String :=
  if f.isInteger then toString f.numer.toInt
  else toString f.numer.toInt ++ "/" ++ toString f.denom.toNat

end Fraction

end Quadra
