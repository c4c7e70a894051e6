import Quadra.Binary64.Arithmetic

set_option autoImplicit false

/-!
# Six decimal places

A number rounded to six decimal places. The exact value is rounded, and a half goes to the even
last digit. The sign of a negative number is kept where all digits are zero.
-/

namespace Quadra

namespace Fixed

/-- The digits of `n`, led by zeros to the given width. -/
def padded (width n : Nat) : List Char :=
  let digits := Nat.toDigits 10 n
  List.replicate (width - digits.length) '0' ++ digits

/-- The number `n / 10 ^ places` with its point. -/
def writeScaled (places n : Nat) : List Char :=
  Nat.toDigits 10 (n / Nat.pow 10 places) ++ '.' :: padded places (n % Nat.pow 10 places)

/-- The text of a number with this many decimal places. -/
def write (places : Nat) (x : Binary64) : List Char :=
  let sign := if x.isNegative then ['-'] else []
  match x with
  | .nan => ['N', 'a', 'N']
  | .infinite _ => sign ++ ['i', 'n', 'f']
  | .finite _ _ _ _ =>
      sign ++ writeScaled places (nearestInteger (x.value.abs * Nat.pow 10 places)).toNat

end Fixed

/-- A number with six decimal places; adding zero makes a negative zero positive. -/
def Binary64.fixed (x : Binary64) : String := .ofList (Fixed.write 6 (x + zero false))

end Quadra
