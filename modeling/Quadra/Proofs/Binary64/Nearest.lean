import Quadra.Proofs.Binary64.Symmetry
import Quadra.Proofs.Numeric.Floor

set_option autoImplicit false

/-!
# The nearest of all numbers

A rational is rounded to the number next to it. `IsNearest` says so by comparison with every finite
number: none is nearer, and one that is as near leaves the result an even mantissa. From the overflow
bound on the result is infinite: `correctlyRounded_nearest`.
-/

namespace Quadra

/-! ## Nearest integers -/

/-- Two integers are together at least one away from any rational. -/
theorem one_le_abs_sub_add_abs_sub {n m : Int} (hne : n ≠ m) (q : Rat) :
    1 ≤ |(n : Rat) - q| + |(m : Rat) - q| := by
  have hgap : (1 : Rat) ≤ |(n : Rat) - m| := by
    exact_mod_cast Int.one_le_abs (sub_ne_zero.mpr hne)
  calc (1 : Rat) ≤ |(n : Rat) - m| := hgap
    _ ≤ |(n : Rat) - q| + |q - m| := abs_sub_le _ _ _
    _ = |(n : Rat) - q| + |(m : Rat) - q| := by rw [abs_sub_comm q]

/-- No integer is nearer than the nearest one. -/
theorem abs_nearestInteger_sub_le_abs (q : Rat) (n : Int) :
    |(nearestInteger q : Rat) - q| ≤ |(n : Rat) - q| := by
  by_cases heq : n = nearestInteger q
  · rw [heq]
  · have hgap := one_le_abs_sub_add_abs_sub heq q
    have hhalf := abs_nearestInteger_sub_le q
    linarith

/-- Another integer is as near only to a half, which goes to the even one. -/
theorem nearestInteger_even_of_tie {q : Rat} {n : Int} (hne : n ≠ nearestInteger q)
    (htie : |(n : Rat) - q| = |(nearestInteger q : Rat) - q|) : nearestInteger q % 2 = 0 := by
  have hhalf : 1 / 2 ≤ |(nearestInteger q : Rat) - q| := by
    linarith [one_le_abs_sub_add_abs_sub hne q]
  have hbelow : (q.floor : Rat) ≤ q := Rat.floor_le q
  have habove : q < q.floor + 1 := by exact_mod_cast Rat.lt_floor_add_one q
  rw [nearestInteger] at hhalf ⊢
  split at hhalf
  · rw [abs_of_nonpos (by linarith)] at hhalf
    linarith
  · split at hhalf
    · push_cast at hhalf
      rw [abs_of_pos (by linarith)] at hhalf
      linarith
    · -- a half is between two integers, one of which is even
      rename_i hlow hhigh
      rw [if_neg hlow, if_neg hhigh]
      split <;> omega

namespace Binary64

/-! ## The grid of a rational and all other numbers -/

/-- A number lies on the grid of `q`, or below its binade and so below `q`. -/
theorem exists_eq_grid_or_lt {y : Binary64} (hy : y.isFinite = true) (q : Rat) (hq : 0 < q) :
    (∃ n : Int, y.value = n * 2 ^ gridExponent q) ∨
      y.value < 2 ^ (gridExponent q + 52) ∧ (2 : Rat) ^ (gridExponent q + 52) ≤ q := by
  obtain ⟨m, e, habs, hm, he, -⟩ := exists_abs_value_eq hy
  rcases le_or_gt (gridExponent q) e with hle | hlt
  · left
    obtain ⟨n, hn⟩ := exists_eq_intCast_of_exponent m (sub_nonneg.mpr hle)
    have hscaled : |y.value| = n * 2 ^ gridExponent q := by
      rw [habs, ← hn, mul_assoc, ← two_zpow_add, sub_add_cancel]
    rcases abs_choice y.value with h | h
    · exact ⟨n, by rw [← h, hscaled]⟩
    · exact ⟨-n, by rw [Int.cast_neg, neg_mul, ← hscaled, h, Rat.neg_neg]⟩
  · -- a finer grid is that of a smaller binade
    right
    have hbinade : gridExponent q + 52 = binaryExponent q := by
      rcases gridExponent_cases q with h | ⟨h, -⟩ <;> omega
    constructor
    · calc y.value ≤ |y.value| := le_abs_self _
        _ = m * 2 ^ e := habs
        _ < 2 ^ (53 : Int) * 2 ^ e :=
            mul_lt_mul_of_pos_right (by norm_num; exact_mod_cast hm) (two_zpow_pos e)
        _ = 2 ^ (53 + e) := (two_zpow_add 53 e).symm
        _ ≤ 2 ^ (gridExponent q + 52) := two_zpow_mono (by omega)
    · rw [hbinade]
      exact (binaryExponent_bounds hq).1

/-- Distances from `q` are those on its grid, scaled. -/
theorem abs_grid_sub (q : Rat) (n : Int) :
    |(n : Rat) * 2 ^ gridExponent q - q| =
      |(n : Rat) - q / 2 ^ gridExponent q| * 2 ^ gridExponent q := by
  have hpow := two_zpow_pos (gridExponent q)
  have hscaled : (n : Rat) * 2 ^ gridExponent q - q =
      (n - q / 2 ^ gridExponent q) * 2 ^ gridExponent q := by
    rw [sub_mul, div_mul_cancel₀ q hpow.ne']
  rw [hscaled, abs_mul, abs_of_pos hpow]

/-- The grid value is the nearest multiple of the grid. -/
theorem abs_gridValue_sub_le_grid (q : Rat) (n : Int) :
    |gridValue q - q| ≤ |(n : Rat) * 2 ^ gridExponent q - q| := by
  rw [gridValue, abs_grid_sub, abs_grid_sub]
  exact mul_le_mul_of_nonneg_right (abs_nearestInteger_sub_le_abs _ n) (two_zpow_pos _).le

/-- A number of a smaller binade is farther away than the grid value. -/
theorem abs_gridValue_sub_lt {q : Rat} {y : Binary64} (hlow : y.value < 2 ^ (gridExponent q + 52))
    (hq : (2 : Rat) ^ (gridExponent q + 52) ≤ q) : |gridValue q - q| < |y.value - q| := by
  have hleast := abs_gridValue_sub_le_grid q 4503599627370496
  have hpow : ((4503599627370496 : Int) : Rat) * 2 ^ gridExponent q = 2 ^ (gridExponent q + 52) := by
    rw [add_comm, two_zpow_add]
    norm_num
  rw [hpow, abs_of_nonpos (sub_nonpos.mpr hq)] at hleast
  have hfar : |y.value - q| = -(y.value - q) := abs_of_neg (by linarith)
  rw [hfar]
  linarith

/-- No number is nearer to a positive rational than its grid value. -/
theorem abs_gridValue_sub_le_number {q : Rat} (hq : 0 < q) {y : Binary64} (hy : y.isFinite = true) :
    |gridValue q - q| ≤ |y.value - q| := by
  rcases exists_eq_grid_or_lt hy q hq with ⟨n, hn⟩ | ⟨hlow, hbinade⟩
  · rw [hn]
    exact abs_gridValue_sub_le_grid q n
  · exact (abs_gridValue_sub_lt hlow hbinade).le

/-- Another number is as near only when the mantissa of the grid value is even. -/
theorem gridMantissa_even_of_tie {q : Rat} (hq : 0 < q) {y : Binary64} (hy : y.isFinite = true)
    (hne : y.value ≠ gridValue q) (htie : |y.value - q| = |gridValue q - q|) :
    gridMantissa q % 2 = 0 := by
  rcases exists_eq_grid_or_lt hy q hq with ⟨n, hn⟩ | ⟨hlow, hbinade⟩
  · rw [hn, gridValue, abs_grid_sub, abs_grid_sub] at htie
    refine nearestInteger_even_of_tie ?_ (mul_right_cancel₀ (two_zpow_pos _).ne' htie)
    rintro rfl
    exact hne hn
  · exact absurd htie (abs_gridValue_sub_lt hlow hbinade).ne'

/-! ## Mantissas -/

/-- The mantissa of a finite number. -/
def mantissa : Binary64 → Nat
  | .finite _ m _ _ => m
  | _ => 0

@[simp] theorem mantissa_zero (negative : Bool) : (zero negative).mantissa = 0 := rfl

@[simp] theorem mantissa_neg (x : Binary64) : (-x).mantissa = x.mantissa := by
  rcases x with _ | _ | ⟨_, _, _, _⟩ <;> rfl

theorem mantissa_pack_even (negative : Bool) {m : Nat} (e : Int) (h : m % 2 = 0) :
    (pack negative m e).mantissa % 2 = 0 := by
  rw [pack]
  split
  · exact h
  · rfl

/-- An even mantissa of the grid stays even, also where it is carried to the next power of two. -/
theorem mantissa_ofMagnitude_even (negative : Bool) {q : Rat} (h : gridMantissa q % 2 = 0) :
    (ofMagnitude negative q).mantissa % 2 = 0 := by
  rw [ofMagnitude]
  split
  · rfl
  · simp only [← gridMantissa.eq_1]
    split
    · exact mantissa_pack_even negative _ rfl
    · exact mantissa_pack_even negative _ (by omega)

/-- The mantissa belongs to the magnitude. -/
theorem mantissa_eq_of_abs_value_eq {x y : Binary64} (hx : x.isFinite = true) (hy : y.isFinite = true)
    (h : |x.value| = |y.value|) : x.mantissa = y.mantissa := by
  have hsign : ∀ (negative : Bool) (q : Rat),
      (ofMagnitude negative q).mantissa = (ofMagnitude false q).mantissa := by
    intro negative q
    cases negative with
    | false => rfl
    | true => rw [ofMagnitude_true, mantissa_neg]
  rw [← ofMagnitude_abs_value hx, ← ofMagnitude_abs_value hy, hsign x.isNegative, hsign y.isNegative,
    ratAbs_eq, ratAbs_eq, h]

/-! ## The nearest number -/

/-- The finite number `x` is the nearest to `q`: no other is nearer, and when another is as near the
mantissa of `x` is even. -/
structure IsNearest (q : Rat) (x : Binary64) : Prop where
  isFinite : x.isFinite = true
  le : ∀ y : Binary64, y.isFinite = true → |x.value - q| ≤ |y.value - q|
  even : ∀ y : Binary64, y.isFinite = true → y.value ≠ x.value → |y.value - q| = |x.value - q| →
    x.mantissa % 2 = 0

theorem IsNearest.neg {q : Rat} {x : Binary64} (h : IsNearest q x) : IsNearest (-q) (-x) := by
  -- the opposite of any number is as far from `-q` as the number is from `q`
  have hflip : ∀ y : Binary64, |(-y).value - -q| = |y.value - q| := by
    intro y
    rw [value_opposite, neg_sub_neg, abs_sub_comm]
  refine ⟨(isFinite_opposite x).trans h.isFinite, fun y hy => ?_, fun y hy hne htie => ?_⟩
  · rw [← opposite_opposite y, hflip, hflip]
    exact h.le (-y) ((isFinite_opposite y).trans hy)
  · rw [mantissa_neg]
    rw [← opposite_opposite y, hflip, hflip] at htie
    refine h.even (-y) ((isFinite_opposite y).trans hy) (fun heq => hne ?_) htie
    rw [value_opposite, ← heq, value_opposite, Rat.neg_neg]

/-- A positive rational below the overflow bound is rounded to the nearest number. -/
theorem isNearest_nearest_of_pos {q : Rat} (hq : 0 < q) (h : q < overflowBound) :
    IsNearest q (nearest q) := by
  have hvalue := value_nearest_of_nonneg hq.le h
  refine ⟨(isFinite_nearest_iff q).mpr (by rwa [abs_of_pos hq]), fun y hy => ?_,
    fun y hy hne htie => ?_⟩
  · rw [hvalue]
    exact abs_gridValue_sub_le_number hq hy
  · rw [hvalue] at hne htie
    rw [nearest, if_neg hq.not_gt]
    exact mantissa_ofMagnitude_even false (gridMantissa_even_of_tie hq hy hne htie)

/-- What is equal to the nearest number up to the sign of a zero is the nearest number. -/
theorem IsNearest.of_value_eq {q : Rat} {x y : Binary64} (h : IsNearest q x) (hy : y.isFinite = true)
    (heq : y.value = x.value) : IsNearest q y := by
  refine ⟨hy, fun z hz => heq ▸ h.le z hz, fun z hz hne htie => ?_⟩
  rw [heq] at hne htie
  rw [mantissa_eq_of_abs_value_eq hy h.isFinite (by rw [heq])]
  exact h.even z hz hne htie

/-- **Rounding goes to the nearest number**, a tie to an even mantissa. -/
theorem Rounds.isNearest {x : Binary64} {q : Rat} (h : Rounds x q) : IsNearest q x := by
  have hrange := h.inRange
  refine IsNearest.of_value_eq ?_ h.isFinite h.value_eq
  rcases lt_trichotomy q 0 with hneg | rfl | hpos
  · have hopposite := isNearest_nearest_of_pos (q := -q) (neg_pos.mpr hneg)
      (by rwa [abs_of_neg hneg] at hrange)
    have hnearest := hopposite.neg
    rw [Rat.neg_neg] at hnearest
    refine hnearest.of_value_eq ((isFinite_nearest_iff q).mpr hrange) ?_
    rw [value_opposite, value_nearest_neg, Rat.neg_neg]
  · rw [nearest_zero]
    refine ⟨rfl, fun y _ => ?_, fun _ _ _ _ => rfl⟩
    rw [value_zero, sub_zero, abs_zero]
    exact abs_nonneg _
  · exact isNearest_nearest_of_pos hpos (by rwa [abs_of_pos hpos] at hrange)

/-! ## Overflow -/

/-- The number `x` is `q` correctly rounded: the nearest number, or the infinity of the sign of `q` from
the overflow bound on. -/
structure CorrectlyRounded (q : Rat) (x : Binary64) : Prop where
  nearest : |q| < overflowBound → IsNearest q x
  overflow : overflowBound ≤ |q| → x = infinite (decide (q < 0))

/-- **Every rational is rounded correctly.** -/
theorem correctlyRounded_nearest (q : Rat) : CorrectlyRounded q (nearest q) where
  nearest h := (rounds_nearest h).isNearest
  overflow h := by
    have hinfinite : (nearest q).isFinite = false := by
      rw [← Bool.not_eq_true, isFinite_nearest_iff]
      exact not_lt.mpr h
    rw [nearest] at hinfinite ⊢
    split at hinfinite
    · rename_i hneg
      rw [if_pos hneg, decide_eq_true hneg]
      exact eq_infinite_of_ofMagnitude hinfinite
    · rename_i hnonneg
      rw [if_neg hnonneg, decide_eq_false hnonneg]
      exact eq_infinite_of_ofMagnitude hinfinite

end Binary64

end Quadra
