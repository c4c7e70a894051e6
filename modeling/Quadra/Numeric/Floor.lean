import Quadra.Binary64.Arithmetic
import Quadra.Binary64.Integers

set_option autoImplicit false

/-!
# Magnitude, maximum and integer part

The functions on binary64 numbers that need no iteration. They are written with binary64
operations, each of which rounds, so that they answer as a floating-point unit does.
-/

namespace Quadra.Numeric

open Binary64

/-- The tolerance below which a number counts as zero, or as an integer. -/
def epsilon : Binary64 := 1e-9

/-- The magnitude. A negative zero is not below zero and stays as it is. -/
def abs (x : Binary64) : Binary64 := if x < 0 then -x else x

/-- The largest of the numbers, or negative infinity where there is none. A `nan` is above no
number and so is passed over. -/
def maximum (xs : List Binary64) : Binary64 :=
  xs.foldl (fun largest x => if largest < x then x else largest) (.infinite true)

/-- The greatest integer that is at most `x`: the integer part, one less for a negative number
with a fraction. From `2 ^ 52` on every number is an integer. -/
def floor (x : Binary64) : Binary64 :=
  if !x.isFinite || 4503599627370496 ≤ abs x then x
  else
    let whole := ofInt x.toInt64.toInt
    if x < 0 && !whole.equals x then whole - 1 else whole

/-- Half up: the floor of the binary64 sum `x + 1/2`. -/
def round (x : Binary64) : Binary64 := floor (x + 0.5)

end Quadra.Numeric
