import Quadra.Binary64.Rounding

set_option autoImplicit false

/-!
# Shortest decimals

The decimal with the fewest digits that rounds back to a given binary64 number. For one digit,
two digits and so on, the two neighbours of the number on that decimal grid are tried; the first
grid with a neighbour that reads back wins, and of two such neighbours the nearer one.
-/

namespace Quadra

/-- The rational `significand * 10 ^ exponent`. -/
structure Decimal where
  significand : Nat
  exponent : Int
deriving DecidableEq

namespace Decimal

/-- The rational that a decimal stands for. -/
def value (d : Decimal) : Rat := d.significand * 10 ^ d.exponent

/-! ## Digits -/

/-- The digits of the significand, without leading zeros. -/
def digits (d : Decimal) : List Char := Nat.toDigits 10 d.significand

/-- The power of ten of the first digit. -/
def leadingExponent (d : Decimal) : Int := d.exponent + d.digits.length - 1

/-- The number of zeros at the end of the significand. -/
def trailingZeros (d : Decimal) : Nat := (d.digits.reverse.takeWhile (· == '0')).length

/-- The same decimal without zeros at the end of its significand. -/
def strip (d : Decimal) : Decimal :=
  ⟨d.significand / Nat.pow 10 d.trailingZeros, d.exponent + d.trailingZeros⟩

/-- The exponent `l` with `10 ^ l ≤ q < 10 ^ (l + 1)`, for a positive `q`. -/
def exponentOf (q : Rat) : Int :=
  let estimate : Int :=
    ((Nat.toDigits 10 q.num.natAbs).length : Int) - (Nat.toDigits 10 q.den).length
  if (10 : Rat) ^ estimate ≤ q then estimate else estimate - 1

/-! ## Search -/

/-- Which of two equally near decimals is taken: the greater one, or the one whose last digit is
even. -/
inductive Tie
  | up
  | toEven
deriving DecidableEq

/-- Whether the decimal rounds to the magnitude of `x`. -/
def readsBack (x : Binary64) (d : Decimal) : Bool :=
  Binary64.ofMagnitude x.isNegative d.value = x

/-- Of the two neighbours of `x` with `count` digits, the nearest that reads back. -/
def neighbour? (tie : Tie) (x : Binary64) (count : Nat) : Option Decimal :=
  let q := x.value.abs
  let exponent := exponentOf q + 1 - count
  let scaled := q / 10 ^ exponent
  let below : Decimal := ⟨scaled.floor.toNat, exponent⟩
  let above : Decimal := ⟨scaled.floor.toNat + 1, exponent⟩
  let rest := scaled - scaled.floor
  match readsBack x below, readsBack x above with
  | false, false => none
  | true, false => some below
  | false, true => some above
  | true, true =>
      if rest < 1 / 2 then some below
      else if 1 / 2 < rest then some above
      else if tie = .toEven ∧ below.significand % 2 = 0 then some below
      else some above

/-- The exact decimal of a finite number: a power of two below one is a power of five scaled by a
power of ten. -/
def exact : Binary64 → Decimal
  | .finite _ m e _ =>
      if 0 ≤ e then ⟨m * Nat.pow 2 e.toNat, 0⟩ else ⟨m * Nat.pow 5 (-e).toNat, e⟩
  | _ => ⟨0, 0⟩

/-- The shortest decimal that reads back as the magnitude of `x`. Seventeen digits always suffice;
the exact decimal stands behind them. -/
def shortest (tie : Tie) (x : Binary64) : Decimal :=
  if x.isZero then ⟨0, 0⟩
  else
    let found := (List.range 17).findSome? fun i => neighbour? tie x (i + 1)
    (found.getD (exact x)).strip

end Decimal

end Quadra
