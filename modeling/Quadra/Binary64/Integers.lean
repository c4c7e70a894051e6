import Quadra.Binary64.Rounding

set_option autoImplicit false

/-!
# Binary64 numbers and machine integers

A number becomes an integer by cutting off its fraction. One that does not fit in the machine
integer becomes the nearest that does, and `nan` becomes zero.
-/

namespace Quadra.Binary64

/-- The rational cut toward zero. -/
def cut (q : Rat) : Int := if q < 0 then -(-q).floor else q.floor

/-- The integer part of a number, brought into the range from `low` to `high`. -/
def toRange (low high : Int) : Binary64 → Int
  | .nan => 0
  | .infinite negative => if negative then low else high
  | x@(.finite _ _ _ _) => max low (min high (cut x.value))

/-- The integer part as a signed 64-bit integer. -/
def toInt64 (x : Binary64) : Int64 :=
  .ofInt (x.toRange (-9223372036854775808) 9223372036854775807)

/-- The integer part as an unsigned 64-bit integer. -/
def toUInt64 (x : Binary64) : UInt64 :=
  .ofNat (x.toRange 0 18446744073709551615).toNat

/-- The integer part as an unsigned 32-bit integer. -/
def toUInt32 (x : Binary64) : UInt32 :=
  .ofNat (x.toRange 0 4294967295).toNat

/-- The number nearest to an integer. -/
def ofInt (n : Int) : Binary64 := nearest n

end Quadra.Binary64
