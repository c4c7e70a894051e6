import Quadra.Proofs.Binary64.Special

set_option autoImplicit false

/-!
# Signs

Every operation is symmetric about zero: opposite operands give the opposite result, infinities and
`nan` included, except that a sum of zero is positive. Numbers that are equal up to the sign of a zero
are `Alike`; sums, products and dividends keep this.
-/

namespace Quadra.Binary64

/-! ## Opposite operands -/

theorem neg_ofMagnitude (negative : Bool) (q : Rat) :
    -ofMagnitude negative q = ofMagnitude (!negative) q := by
  cases negative with
  | false => exact (ofMagnitude_true q).symm
  | true =>
      rw [ofMagnitude_true]
      exact neg_neg _

@[simp] theorem neg_nan : -nan = nan := rfl

@[simp] theorem neg_infinite (negative : Bool) : -infinite negative = infinite !negative := rfl

@[simp] theorem neg_finite (negative : Bool) (m : Nat) (e : Int) (h : Canonical m e) :
    -finite negative m e h = finite (!negative) m e h := rfl

@[simp] theorem opposite_opposite (x : Binary64) : - -x = x := neg_neg x

theorem isZero_neg (x : Binary64) : (-x).isZero = x.isZero := by
  cases x <;> rfl

theorem value_opposite (x : Binary64) : (-x).value = -x.value := value_neg x

theorem isFinite_opposite (x : Binary64) : (-x).isFinite = x.isFinite := isFinite_neg x

/-- The sign of a product or a quotient is flipped with the sign of an operand. -/
theorem not_bne (s s' : Bool) : ((!s) != s') = !(s != s') := by
  cases s <;> cases s' <;> rfl

theorem bne_not (s s' : Bool) : (s != !s') = !(s != s') := by
  cases s <;> cases s' <;> rfl

/-- An opposite factor gives the opposite product. -/
theorem mul_opposite (x y : Binary64) : -x * y = -(x * y) := by
  rcases x with _ | s | ⟨s, m, e, h⟩
  · rfl
  · rcases y with _ | s' | ⟨s', m', e', h'⟩
    · rfl
    · exact congrArg infinite (not_bne s s')
    · rw [neg_infinite, infinite_mul _ rfl, infinite_mul _ rfl, not_bne]
      split <;> rfl
  · rcases y with _ | s' | ⟨s', m', e', h'⟩
    · rfl
    · rw [mul_swap, infinite_mul _ rfl, mul_swap, infinite_mul _ rfl, isZero_neg, neg_finite]
      show (if _ then _ else infinite (s' != !s)) = _
      rw [bne_not]
      split <;> rfl
    · show ofMagnitude ((!s) != s') ((-finite s m e h).value * _).abs = _
      rw [value_opposite, neg_mul, Rat.abs_neg, not_bne, ← neg_ofMagnitude]
      rfl

theorem opposite_factor (x y : Binary64) : x * -y = -(x * y) := by
  rw [mul_swap, mul_opposite, mul_swap]

theorem opposite_mul_opposite (x y : Binary64) : -x * -y = x * y := by
  rw [mul_opposite, opposite_factor, opposite_opposite]

/-- An opposite dividend gives the opposite quotient. -/
theorem div_opposite (x y : Binary64) : -x / y = -(x / y) := by
  rcases x with _ | s | ⟨s, m, e, h⟩ <;> rcases y with _ | s' | ⟨s', m', e', h'⟩
  case infinite.finite => exact congrArg infinite (not_bne s s')
  case finite.infinite => exact congrArg zero (not_bne s s')
  case finite.finite =>
    rw [finite_div rfl rfl, finite_div rfl rfl, isZero_neg, isNegative_neg rfl, value_opposite,
      neg_div, Rat.abs_neg, not_bne, ← neg_ofMagnitude]
    split
    · split <;> rfl
    · rfl
  all_goals rfl

/-- An opposite divisor gives the opposite quotient. -/
theorem opposite_divisor (x y : Binary64) : x / -y = -(x / y) := by
  rcases x with _ | s | ⟨s, m, e, h⟩ <;> rcases y with _ | s' | ⟨s', m', e', h'⟩
  case infinite.finite => exact congrArg infinite (bne_not s s')
  case finite.infinite => exact congrArg zero (bne_not s s')
  case finite.finite =>
    rw [finite_div rfl rfl, finite_div rfl rfl, isZero_neg, isNegative_neg rfl, value_opposite,
      div_neg, Rat.abs_neg, bne_not, ← neg_ofMagnitude]
    split
    · split <;> rfl
    · rfl
  all_goals rfl

/-! ## Zeros of either sign -/

/-- Numbers that are equal, or zeros of either sign. -/
inductive Alike : Binary64 → Binary64 → Prop
  | refl (x : Binary64) : Alike x x
  | zeros (negative negative' : Bool) : Alike (zero negative) (zero negative')

namespace Alike

variable {x x' y y' : Binary64}

theorem trans {z : Binary64} (h : Alike x y) (h' : Alike y z) : Alike x z := by
  cases h with
  | refl => exact h'
  | zeros s s' =>
      generalize hz : zero s' = w at h'
      cases h' with
      | refl => exact hz ▸ zeros s s'
      | zeros _ s'' => exact zeros s s''

theorem eq_of_not_isZero (h : Alike x y) (hy : y.isZero = false) : x = y := by
  cases h with
  | refl => rfl
  | zeros s s' => cases hy

theorem neg (h : Alike x y) : Alike (-x) (-y) := by
  cases h with
  | refl => exact refl (-x)
  | zeros s s' => exact zeros (!s) (!s')

/-- Numbers that are alike have the same order to any number. -/
theorem lt_iff (h : Alike x y) (z : Binary64) : x < z ↔ y < z := by
  cases h with
  | refl => rfl
  | zeros s s' =>
      rcases z with _ | _ | ⟨_, _, _, _⟩
      · exact iff_of_false (not_lt_nan _) (not_lt_nan _)
      · rfl
      · rw [lt_iff_value_lt rfl rfl, lt_iff_value_lt rfl rfl, value_zero, value_zero]

theorem gt_iff (h : Alike x y) (z : Binary64) : z < x ↔ z < y := by
  cases h with
  | refl => rfl
  | zeros s s' =>
      rcases z with _ | _ | ⟨_, _, _, _⟩
      · exact iff_of_false (not_nan_lt _) (not_nan_lt _)
      · rfl
      · rw [lt_iff_value_lt rfl rfl, lt_iff_value_lt rfl rfl, value_zero, value_zero]

theorem add_right (h : Alike x x') (y : Binary64) : Alike (x + y) (x' + y) := by
  cases h with
  | refl => exact refl _
  | zeros s s' =>
      rcases hy : y.isFinite with _ | _
      · -- infinities and `nan` absorb a zero
        rcases y with _ | _ | ⟨_, _, _, _⟩
        · exact refl _
        · exact refl _
        · cases hy
      · rw [add_of_isFinite rfl hy, add_of_isFinite rfl hy, value_zero, value_zero]
        split
        · exact zeros _ _
        · exact refl _

theorem add (h : Alike x x') (h' : Alike y y') : Alike (x + y) (x' + y') := by
  refine (h.add_right y).trans ?_
  rw [add_swap x' y, add_swap x' y']
  exact h'.add_right x'

theorem mul_right (h : Alike x x') (y : Binary64) : Alike (x * y) (x' * y) := by
  cases h with
  | refl => exact refl _
  | zeros s s' =>
      rcases y with _ | _ | ⟨_, _, _, _⟩
      · exact refl _
      · exact refl _
      · rw [mul_of_isFinite rfl rfl, mul_of_isFinite rfl rfl, value_zero, value_zero, zero_mul,
          Rat.abs_zero, ofMagnitude, ofMagnitude, if_pos le_rfl, if_pos le_rfl]
        exact zeros _ _

theorem mul_left (h : Alike x x') (y : Binary64) : Alike (y * x) (y * x') := by
  rw [mul_swap y x, mul_swap y x']
  exact h.mul_right y

theorem div (h : Alike x x') (y : Binary64) : Alike (x / y) (x' / y) := by
  cases h with
  | refl => exact refl _
  | zeros s s' =>
      rcases y with _ | _ | ⟨_, _, _, _⟩
      · exact refl _
      · exact zeros _ _
      · rw [finite_div rfl rfl, finite_div rfl rfl, value_zero, value_zero, zero_div, Rat.abs_zero,
          ofMagnitude, ofMagnitude, if_pos le_rfl, if_pos le_rfl]
        split
        · exact refl _
        · exact zeros _ _

/-- An opposite dividend over an opposite divisor gives the same quotient. -/
theorem div_opposite_divisor (h : Alike x (-x')) (y : Binary64) : Alike (x / -y) (x' / y) := by
  have hquotient := h.div (-y)
  rwa [div_opposite, opposite_divisor x', opposite_opposite] at hquotient

end Alike

/-- Rounding is symmetric about zero, where it gives a positive zero. -/
theorem nearest_opposite {q : Rat} (hq : q ≠ 0) : nearest (-q) = -nearest q := by
  rcases lt_or_gt_of_ne hq with hneg | hpos
  · rw [nearest, if_neg (by linarith), nearest, if_pos hneg, neg_ofMagnitude]
    rfl
  · rw [nearest, if_pos (by linarith), Rat.neg_neg, nearest, if_neg (by linarith), neg_ofMagnitude]
    rfl

/-- Opposite terms give the opposite sum, up to the sign of a sum of zero. -/
theorem alike_opposite_add (x y : Binary64) : Alike (-x + -y) (-(x + y)) := by
  rcases x with _ | s | ⟨s, m, e, h⟩ <;> rcases y with _ | s' | ⟨s', m', e', h'⟩
  case infinite.infinite => cases s <;> cases s' <;> exact .refl _
  case finite.finite =>
    rw [add_of_isFinite rfl rfl, add_of_isFinite rfl rfl, value_opposite, value_opposite, ← neg_add]
    by_cases hzero : (finite s m e h).value + (finite s' m' e' h').value = 0
    · rw [if_pos hzero, if_pos (neg_eq_zero.mpr hzero)]
      exact .zeros _ _
    · rw [if_neg hzero, if_neg (neg_ne_zero.mpr hzero), nearest_opposite hzero]
      exact .refl _
  all_goals exact .refl _

/-- A zero of either sign taken from a number that is not negative leaves the same number. -/
theorem sub_eq_of_alike {x y y' : Binary64} (hx : x.isNegative = false) (h : Alike y y') :
    x - y = x - y' := by
  cases h with
  | refl => rfl
  | zeros s s' =>
      rcases hfinite : x.isFinite with _ | _
      · rcases x with _ | _ | ⟨_, _, _, _⟩
        · rfl
        · rfl
        · cases hfinite
      · show x + zero (!s) = x + zero (!s')
        rw [add_of_isFinite hfinite rfl, add_of_isFinite hfinite rfl, value_zero, value_zero, hx]
        rfl

theorem isNegative_ofMagnitude (negative : Bool) (q : Rat) :
    (ofMagnitude negative q).isNegative = negative := by
  rcases le_or_gt q 0 with hzero | hpos
  · rw [ofMagnitude, if_pos hzero]
    rfl
  · obtain ⟨m, e, hpack, -⟩ := ofMagnitude_eq_pack negative hpos
    rw [hpack, pack]
    split <;> rfl

/-- A square is not negative. -/
theorem isNegative_mul_self (x : Binary64) : (x * x).isNegative = false := by
  rcases x with _ | s | ⟨s, m, e, h⟩
  · rfl
  · cases s <;> rfl
  · rw [mul_of_isFinite rfl rfl, bne_self_eq_false]
    exact isNegative_ofMagnitude false _

/-- The squares of numbers that are alike are equal. -/
theorem Alike.mul_self_eq {x y : Binary64} (h : Alike x y) : x * x = y * y := by
  cases h with
  | refl => rfl
  | zeros s s' => cases s <;> cases s' <;> decide +kernel

end Quadra.Binary64

/-! ## Magnitudes -/

namespace Quadra.Numeric

open Binary64

theorem alike_abs {x y : Binary64} (h : Alike x y) : Alike (abs x) (abs y) := by
  have hlt := h.lt_iff 0
  rw [abs, abs]
  by_cases hx : x < 0
  · rw [if_pos hx, if_pos (hlt.mp hx)]
    exact h.neg
  · rw [if_neg hx, if_neg fun hy => hx (hlt.mpr hy)]
    exact h

/-- Opposite numbers have the same magnitude. -/
theorem alike_abs_opposite (x : Binary64) : Alike (abs (-x)) (abs x) := by
  rcases x with _ | s | ⟨s, m, e, h⟩
  · exact .refl _
  · cases s <;> exact .refl _
  · set x := finite s m e h with hx
    have hlt : x < 0 ↔ x.value < 0 := lt_zero_iff rfl
    have hlt' : -x < 0 ↔ 0 < x.value := by rw [lt_zero_iff rfl, value_opposite, neg_lt_zero]
    rcases lt_trichotomy x.value 0 with hneg | hzero | hpos
    · rw [abs, if_neg fun h => absurd (hlt'.mp h) hneg.not_gt, abs, if_pos (hlt.mpr hneg)]
      exact .refl _
    · rw [eq_zero_of_value_eq_zero rfl hzero]
      exact alike_abs (.zeros _ _)
    · rw [abs, if_pos (hlt'.mpr hpos), abs, if_neg fun h => absurd (hlt.mp h) hpos.not_gt,
        opposite_opposite]
      exact .refl _

end Quadra.Numeric
