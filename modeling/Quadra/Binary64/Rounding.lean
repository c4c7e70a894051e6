import Quadra.Binary64.Basic

set_option autoImplicit false

/-!
# Rounding to binary64

The binary64 number nearest to a rational: the numbers around `q` lie on the grid of multiples of
`2 ^ e`, where `e` leaves 53 bits in front of it and is never below `-1074`, and `q` goes to the
nearest multiple, a half to the even one. A result beyond the largest finite number is infinite.
-/

namespace Quadra

/-! ## Integers near a rational -/

/-- The integer nearest to `q`; a half goes to the even neighbour. -/
def nearestInteger (q : Rat) : Int :=
  let below := q.floor
  let rest := q - below
  if rest < 1 / 2 then below
  else if 1 / 2 < rest then below + 1
  else if below % 2 = 0 then below
  else below + 1

/-- The exponent `l` with `2 ^ l ≤ q < 2 ^ (l + 1)`, for a positive `q`. -/
def binaryExponent (q : Rat) : Int :=
  let estimate : Int := (q.num.natAbs.log2 : Int) - (q.den.log2 : Int)
  if (2 : Rat) ^ estimate ≤ q then estimate else estimate - 1

namespace Binary64

/-! ## Rounding -/

/-- The exponent of the grid on which a positive `q` is rounded. -/
def gridExponent (q : Rat) : Int := max (-1074) (binaryExponent q - 52)

/-- The finite number with these fields, or the infinity of that sign when they are too large. -/
def pack (negative : Bool) (mantissa : Nat) (exponent : Int) : Binary64 :=
  if h : Canonical mantissa exponent then .finite negative mantissa exponent h
  else .infinite negative

/-- The number nearest to `q` or, with `negative`, to `-q`, where `0 ≤ q`. A result that is zero
keeps the sign. -/
def ofMagnitude (negative : Bool) (q : Rat) : Binary64 :=
  if q ≤ 0 then zero negative
  else
    let e := gridExponent q
    let m := (nearestInteger (q / 2 ^ e)).toNat
    if m = 9007199254740992 then pack negative 4503599627370496 (e + 1)
    else pack negative m e

/-- The number nearest to `q`; zero is positive. -/
def nearest (q : Rat) : Binary64 :=
  if q < 0 then ofMagnitude true (-q) else ofMagnitude false q

instance (n : Nat) : OfNat Binary64 n := ⟨nearest n⟩

instance : OfScientific Binary64 := ⟨fun m s e => nearest (OfScientific.ofScientific m s e)⟩

@[simp] theorem nearest_zero : nearest 0 = zero false := by
  simp [nearest, ofMagnitude]

end Binary64

end Quadra
