import Quadra.Numeric.Floor

set_option autoImplicit false

/-!
# Greatest common divisors

The greatest common divisor of two machine words, and of the integers next to two binary64
numbers. Both are found by Euclid's algorithm, whose remainders are exact also on numbers.
-/

namespace Quadra.Numeric

/-- The greatest common divisor of two words. The divisors fall at every step, down to zero. -/
def wordGcd (u v : UInt64) : UInt64 :=
  if v = 0 then u else wordGcd v (u % v)
termination_by v.toNat
decreasing_by
  rename_i hne
  rw [UInt64.toNat_mod]
  exact Nat.mod_lt _ (Nat.pos_of_ne_zero fun hzero => hne (UInt64.toNat_inj.mp hzero))

/-- Each step keeps the common divisors, and a divisor of zero leaves the greatest of them. -/
theorem toNat_wordGcd (u v : UInt64) : (wordGcd u v).toNat = Nat.gcd u.toNat v.toNat := by
  induction u, v using wordGcd.induct with
  | case1 u => rw [wordGcd, if_pos rfl, UInt64.toNat_zero, Nat.gcd_zero_right]
  | case2 u v hne ih =>
      rw [wordGcd, if_neg hne, ih, UInt64.toNat_mod, Nat.gcd_comm v.toNat, ← Nat.gcd_rec, Nat.gcd_comm]

/-- Euclid's algorithm on numbers, for at most this many steps. -/
def euclid : Nat → Binary64 → Binary64 → Binary64
  | 0, u, _ => u
  | steps + 1, u, v => if v.isZero then u else euclid steps v (u % v)

/-- The greatest common divisor of the integers nearest to `|a|` and `|b|`; `nan` unless both are
finite. The divisors are integers and fall at every step, so the first of them bounds the number of
steps. -/
def gcd (a b : Binary64) : Binary64 :=
  if a.isFinite && b.isFinite then
    let u := round (abs a)
    let v := round (abs b)
    euclid (v.value.floor.toNat + 1) u v
  else .nan

end Quadra.Numeric
