import Quadra.Proofs.Binary64.Error

set_option autoImplicit false

/-!
# Infinities and `nan`

What the operations do with numbers that are not finite: a product or a difference is finite for finite
operands only, an overflow gives the infinity of its sign, and `nan` comes from few places.
-/

namespace Quadra.Binary64

theorem eq_nan_of_isNaN {x : Binary64} (h : x.isNaN = true) : x = nan := by
  rcases x with _ | _ | ⟨_, _, _, _⟩
  · rfl
  · cases h
  · cases h

theorem not_isZero_of_isFinite_eq_false {x : Binary64} (h : x.isFinite = false) :
    x.isZero = false := by
  rcases x with _ | _ | ⟨_, _, _, _⟩
  · rfl
  · rfl
  · cases h

theorem mul_swap (x y : Binary64) : x * y = y * x := by
  show mul x y = mul y x
  have hsign : (x.isNegative != y.isNegative) = (y.isNegative != x.isNegative) := Bool.xor_comm _ _
  rcases x with _ | _ | ⟨_, _, _, _⟩ <;> rcases y with _ | _ | ⟨_, _, _, _⟩ <;>
    simp only [mul, hsign, Rat.mul_comm, Bool.or_comm]

theorem add_swap (x y : Binary64) : x + y = y + x := by
  show add x y = add y x
  rcases x with _ | s | ⟨s, m, e, h⟩ <;> rcases y with _ | s' | ⟨s', m', e', h'⟩
  case infinite.infinite => cases s <;> cases s' <;> rfl
  case finite.finite => simp only [add, Rat.add_comm, Bool.and_comm]
  all_goals rfl

/-! ## Infinite operands -/

theorem infinite_mul (s : Bool) {y : Binary64} (hy : y.isFinite = true) :
    infinite s * y = if y.isZero then nan else infinite (s != y.isNegative) := by
  obtain ⟨s', m, e, h, rfl⟩ := eq_finite_of_isFinite hy
  rfl

theorem infinite_div (s : Bool) {y : Binary64} (hy : y.isFinite = true) :
    infinite s / y = infinite (s != y.isNegative) := by
  obtain ⟨s', m, e, h, rfl⟩ := eq_finite_of_isFinite hy
  rfl

theorem div_infinite (s : Bool) {x : Binary64} (hx : x.isFinite = true) :
    x / infinite s = zero (x.isNegative != s) := by
  obtain ⟨s', m, e, h, rfl⟩ := eq_finite_of_isFinite hx
  rfl

/-- The quotient of finite numbers, in all cases. -/
theorem finite_div {x y : Binary64} (hx : x.isFinite = true) (hy : y.isFinite = true) :
    x / y =
      if y.isZero then if x.isZero then nan else infinite (x.isNegative != y.isNegative)
      else ofMagnitude (x.isNegative != y.isNegative) (x.value / y.value).abs := by
  obtain ⟨s, m, e, h, rfl⟩ := eq_finite_of_isFinite hx
  obtain ⟨s', m', e', h', rfl⟩ := eq_finite_of_isFinite hy
  rfl

theorem add_nan (x : Binary64) : x + nan = nan := by
  rcases x with _ | _ | ⟨_, _, _, _⟩ <;> rfl

/-! ## Overflow -/

theorem eq_infinite_of_ofMagnitude {negative : Bool} {q : Rat}
    (h : (ofMagnitude negative q).isFinite = false) : ofMagnitude negative q = infinite negative := by
  rcases le_or_gt q 0 with hzero | hpos
  · rw [ofMagnitude, if_pos hzero] at h
    cases h
  · obtain ⟨m, e, hpack, -⟩ := ofMagnitude_eq_pack negative hpos
    rw [hpack, pack] at h ⊢
    split at h
    · cases h
    · rename_i hcanonical
      exact dif_neg hcanonical

section

variable {x y : Binary64}

/-- A product is finite for finite factors only. -/
theorem isFinite_of_isFinite_mul (h : (x * y).isFinite = true) :
    x.isFinite = true ∧ y.isFinite = true := by
  rcases x with _ | s | ⟨s, m, e, hc⟩ <;> rcases y with _ | s' | ⟨s', m', e', hc'⟩
  case infinite.finite =>
    rw [infinite_mul _ rfl] at h
    split at h <;> cases h
  case finite.infinite =>
    rw [mul_swap, infinite_mul _ rfl] at h
    split at h <;> cases h
  case finite.finite => exact ⟨rfl, rfl⟩
  all_goals cases h

/-- So is a difference. -/
theorem isFinite_of_isFinite_sub (h : (x - y).isFinite = true) :
    x.isFinite = true ∧ y.isFinite = true := by
  rcases x with _ | s | ⟨s, m, e, hc⟩ <;> rcases y with _ | s' | ⟨s', m', e', hc'⟩
  case infinite.infinite => cases s <;> cases s' <;> cases h
  case finite.finite => exact ⟨rfl, rfl⟩
  all_goals cases h

/-! ## Results that are numbers -/

theorem not_isNaN_of_isFinite (h : x.isFinite = true) : x.isNaN = false := by
  obtain ⟨_, _, _, _, rfl⟩ := eq_finite_of_isFinite h
  rfl

theorem not_isNaN_ofMagnitude (negative : Bool) (q : Rat) :
    (ofMagnitude negative q).isNaN = false := by
  rcases h : (ofMagnitude negative q).isFinite with _ | _
  · rw [eq_infinite_of_ofMagnitude h]
    rfl
  · exact not_isNaN_of_isFinite h

/-- A finite number added to a number gives a number. -/
theorem not_isNaN_add (hx : x.isFinite = true) (hy : y.isNaN = false) : (x + y).isNaN = false := by
  obtain ⟨s, m, e, hc, rfl⟩ := eq_finite_of_isFinite hx
  rcases y with _ | s' | ⟨s', m', e', hc'⟩
  · cases hy
  · rfl
  · rw [add_of_isFinite rfl rfl]
    split
    · rfl
    · rw [nearest]
      split <;> exact not_isNaN_ofMagnitude _ _

theorem not_isNaN_neg (hx : x.isNaN = false) : (-x).isNaN = false := by
  rcases x with _ | _ | ⟨_, _, _, _⟩
  · cases hx
  · rfl
  · rfl

/-- A number over a finite one that is not a zero is a number. -/
theorem not_isNaN_div (hx : x.isNaN = false) (hy : y.isFinite = true) (hzero : y.isZero = false) :
    (x / y).isNaN = false := by
  rcases x with _ | s | ⟨s, m, e, hc⟩
  · cases hx
  · rw [infinite_div _ hy]
    rfl
  · rw [finite_div rfl hy, hzero]
    exact not_isNaN_ofMagnitude _ _

theorem not_isNaN_abs (hx : x.isNaN = false) : (Numeric.abs x).isNaN = false := by
  rw [Numeric.abs]
  split
  · exact not_isNaN_neg hx
  · exact hx

end

end Quadra.Binary64
