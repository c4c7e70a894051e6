import Quadra.Binary64.Arithmetic
import Quadra.Decimal.Shortest

set_option autoImplicit false

/-!
# Layouts of numbers

The text of a binary64 number in its shortest digits. A `Layout` holds what the texts of numbers
differ in. Three are used: `display` in equations and solutions, `inspect` in dumps and event
logs, `record` in JSON.
-/

namespace Quadra

/-- How the shortest digits of a number are written. -/
structure Layout where
  /-- Which of two equally near decimals is written. -/
  tie : Decimal.Tie
  /-- The least power of ten of the first digit that is written without an exponent, and the least
  that is written with one again. Without bounds there is never an exponent. -/
  positional : Option (Int × Int)
  /-- Whether an integer ends in `.0` where it has no exponent. -/
  pointZero : Bool
  /-- Whether an exponent of ten that is not negative has a plus sign. -/
  exponentPlus : Bool

namespace Layout

/-- Equations and solutions show a number without an exponent and integers without a point. -/
def display : Layout := ⟨.up, none, false, false⟩

/-- Dumps and event logs use an exponent from `10 ^ 16` on and below `10 ^ -4`. -/
def inspect : Layout := ⟨.up, some (-4, 16), true, false⟩

/-- JSON numbers use an exponent from `10 ^ 16` on and below `10 ^ -5`. -/
def record : Layout := ⟨.toEven, some (-5, 16), true, true⟩

/-! ## Text of decimals -/

/-- The digits with the point in its place. -/
def writePositional (pointZero : Bool) (d : Decimal) : List Char :=
  if 0 ≤ d.exponent then
    d.digits ++ List.replicate d.exponent.toNat '0' ++ (if pointZero then ['.', '0'] else [])
  else
    let lead := d.digits.length + d.exponent
    if 0 < lead then d.digits.take lead.toNat ++ '.' :: d.digits.drop lead.toNat
    else '0' :: '.' :: List.replicate (-lead).toNat '0' ++ d.digits

/-- The digits with the point behind the first one, and the power of ten. -/
def writeScientific (exponentPlus : Bool) (d : Decimal) : List Char :=
  let mantissa := match d.digits with
    | [] => []
    | [c] => [c]
    | c :: cs => c :: '.' :: cs
  let sign := if d.leadingExponent < 0 then ['-'] else if exponentPlus then ['+'] else []
  mantissa ++ 'e' :: sign ++ Nat.toDigits 10 d.leadingExponent.natAbs

/-- Whether a decimal is written without an exponent. -/
def isPositional (layout : Layout) (d : Decimal) : Bool :=
  match layout.positional with
  | none => true
  | some (least, least') => least ≤ d.leadingExponent && d.leadingExponent < least'

/-- The text of a decimal, with an exponent where the layout has one. -/
def writeDecimal (layout : Layout) (d : Decimal) : List Char :=
  if layout.isPositional d then writePositional layout.pointZero d
  else writeScientific layout.exponentPlus d

/-! ## Text of numbers -/

/-- The text of a number. A zero shows its sign. -/
def write (layout : Layout) (x : Binary64) : List Char :=
  let sign := if x.isNegative then ['-'] else []
  match x with
  | .nan => ['N', 'a', 'N']
  | .infinite _ => sign ++ ['i', 'n', 'f']
  | .finite _ _ _ _ => sign ++ layout.writeDecimal (.shortest layout.tie x)

end Layout

namespace Binary64

/-- A number as equations and solutions show it; adding zero makes a negative zero positive. -/
def display (x : Binary64) : String := .ofList (Layout.display.write (x + zero false))

/-- A number as dumps and event logs show it. -/
def inspect (x : Binary64) : String := .ofList (Layout.inspect.write x)

end Binary64

end Quadra
