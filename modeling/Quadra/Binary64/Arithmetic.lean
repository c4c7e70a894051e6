import Quadra.Binary64.Rounding

set_option autoImplicit false

/-!
# Binary64 arithmetic

Every operation on finite numbers computes the exact rational result and rounds it once. What is
left are the rules for zeros, infinities and `nan`.
-/

namespace Quadra.Binary64

/-- The sum. An exact sum of zero is negative only when both numbers are. -/
def add : Binary64 → Binary64 → Binary64
  | .nan, _ => .nan
  | _, .nan => .nan
  | .infinite negative, .infinite negative' =>
      if negative = negative' then .infinite negative else .nan
  | .infinite negative, .finite _ _ _ _ => .infinite negative
  | .finite _ _ _ _, .infinite negative => .infinite negative
  | x@(.finite _ _ _ _), y@(.finite _ _ _ _) =>
      let sum := x.value + y.value
      if sum = 0 then zero (x.isNegative && y.isNegative) else nearest sum

/-- The difference, which is the sum with the opposite number. -/
def sub (x y : Binary64) : Binary64 := add x (neg y)

/-- The product. Its sign is negative when exactly one factor is, also where it is zero. -/
def mul (x y : Binary64) : Binary64 :=
  let negative := x.isNegative != y.isNegative
  match x, y with
  | .nan, _ => .nan
  | _, .nan => .nan
  | .finite _ _ _ _, .finite _ _ _ _ => ofMagnitude negative (x.value * y.value).abs
  | _, _ => if x.isZero || y.isZero then .nan else .infinite negative

/-- The quotient. Its sign is negative when exactly one number is, also where it is zero; a
number divided by zero is infinite, and `0 / 0` is `nan`. -/
def div (x y : Binary64) : Binary64 :=
  let negative := x.isNegative != y.isNegative
  match x, y with
  | .nan, _ => .nan
  | _, .nan => .nan
  | .infinite _, .infinite _ => .nan
  | .infinite _, .finite _ _ _ _ => .infinite negative
  | .finite _ _ _ _, .infinite _ => zero negative
  | .finite _ _ _ _, .finite _ _ _ _ =>
      if y.isZero then (if x.isZero then .nan else .infinite negative)
      else ofMagnitude negative (x.value / y.value).abs

/-- The remainder `x - n * y`, where `n` is the quotient cut toward zero. It has the sign of `x`
and is always exact. -/
def remainder (x y : Binary64) : Binary64 :=
  match x, y with
  | .finite _ _ _ _, .finite _ _ _ _ =>
      if y.isZero then .nan
      else
        let whole := (x.value / y.value).abs.floor
        ofMagnitude x.isNegative (x.value.abs - whole * y.value.abs)
  | .finite _ _ _ _, .infinite _ => x
  | _, _ => .nan

instance : Add Binary64 := ⟨add⟩

instance : Sub Binary64 := ⟨sub⟩

instance : Mul Binary64 := ⟨mul⟩

instance : Div Binary64 := ⟨div⟩

instance : Mod Binary64 := ⟨remainder⟩

end Quadra.Binary64
