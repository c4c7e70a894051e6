set_option autoImplicit false

/-!
# Binary64 numbers

A binary64 number is one `nan`, one of two infinities, or a finite number: a sign, a mantissa
below `2^53` and a power of two. Equal finite numbers have equal fields (`Canonical`), except
that the two zeros are told apart by their sign. `value` is the exact rational value; all
arithmetic and all text of numbers is defined through it.
-/

namespace Quadra

namespace Binary64

/-- The mantissa and exponent of a finite number. Every mantissa has its full 53 bits, except at
the least exponent, where the subnormal numbers and zero lie. -/
def Canonical (mantissa : Nat) (exponent : Int) : Prop :=
  mantissa < 9007199254740992 ∧ -1074 ≤ exponent ∧ exponent ≤ 971 ∧
    (4503599627370496 ≤ mantissa ∨ exponent = -1074)

instance (mantissa : Nat) (exponent : Int) : Decidable (Canonical mantissa exponent) :=
  inferInstanceAs (Decidable (_ ∧ _))

theorem canonical_zero : Canonical 0 (-1074) := by decide

end Binary64

/-- A binary64 number. A finite one stands for `± mantissa * 2 ^ exponent`. -/
inductive Binary64
  | nan
  | infinite (negative : Bool)
  | finite (negative : Bool) (mantissa : Nat) (exponent : Int)
      (canonical : Binary64.Canonical mantissa exponent)
deriving DecidableEq

namespace Binary64

/-! ## Values -/

/-- The zero of either sign. -/
def zero (negative : Bool) : Binary64 := .finite negative 0 (-1074) canonical_zero

instance : Inhabited Binary64 := ⟨zero false⟩

/-- The exact value of a finite number; the others count as zero. -/
def value : Binary64 → Rat
  | .finite false m e _ => m * 2 ^ e
  | .finite true m e _ => -(m * 2 ^ e)
  | _ => 0

/-- The sign, which zeros and infinities have too. -/
def isNegative : Binary64 → Bool
  | .nan => false
  | .infinite negative => negative
  | .finite negative _ _ _ => negative

/-- Whether a number is `nan`. -/
def isNaN : Binary64 → Bool
  | .nan => true
  | _ => false

/-- Whether a number is neither `nan` nor infinite. -/
def isFinite : Binary64 → Bool
  | .finite _ _ _ _ => true
  | _ => false

/-- Whether a number is one of the two zeros. -/
def isZero : Binary64 → Bool
  | .finite _ m _ _ => m == 0
  | _ => false

/-- The number with its sign flipped, zeros and infinities included. -/
def neg : Binary64 → Binary64
  | .nan => .nan
  | .infinite negative => .infinite !negative
  | .finite negative m e h => .finite (!negative) m e h

instance : Neg Binary64 := ⟨neg⟩

@[simp] theorem value_zero (negative : Bool) : (zero negative).value = 0 := by
  cases negative
  · exact Rat.zero_mul _
  · show -(0 * _) = (0 : Rat)
    rw [Rat.zero_mul]; rfl

@[simp] theorem isZero_zero (negative : Bool) : (zero negative).isZero = true := rfl

@[simp] theorem neg_neg (x : Binary64) : neg (neg x) = x := by
  cases x <;> simp [neg]

@[simp] theorem isFinite_neg (x : Binary64) : (neg x).isFinite = x.isFinite := by
  cases x <;> rfl

@[simp] theorem value_neg (x : Binary64) : (neg x).value = -x.value := by
  rcases x with _ | negative | ⟨_ | _, m, e, h⟩
  · rfl
  · rfl
  · rfl
  · exact (Rat.neg_neg _).symm

/-! ## Order

`nan` is neither below nor above any number and unequal to itself; the two zeros are equal. -/

/-- `x` is strictly below `y`. -/
def less : Binary64 → Binary64 → Bool
  | .nan, _ => false
  | _, .nan => false
  | .infinite negative, .infinite negative' => negative && !negative'
  | .infinite negative, .finite _ _ _ _ => negative
  | .finite _ _ _ _, .infinite negative => !negative
  | x@(.finite _ _ _ _), y@(.finite _ _ _ _) => decide (x.value < y.value)

/-- `x` and `y` are the same number. -/
def equals : Binary64 → Binary64 → Bool
  | .infinite negative, .infinite negative' => negative == negative'
  | x@(.finite _ _ _ _), y@(.finite _ _ _ _) => decide (x.value = y.value)
  | _, _ => false

/-- `x` is below or equal to `y`. -/
def atMost (x y : Binary64) : Bool := x.less y || x.equals y

instance : LT Binary64 := ⟨fun x y => x.less y = true⟩

instance : LE Binary64 := ⟨fun x y => x.atMost y = true⟩

instance (x y : Binary64) : Decidable (x < y) := inferInstanceAs (Decidable (_ = true))

instance (x y : Binary64) : Decidable (x ≤ y) := inferInstanceAs (Decidable (_ = true))

theorem not_lt_nan (x : Binary64) : ¬ x < nan := by
  show ¬ x.less nan = true
  cases x <;> simp [less]

theorem not_nan_lt (x : Binary64) : ¬ nan < x := by
  show ¬ less nan x = true
  simp [less]

end Binary64

end Quadra
