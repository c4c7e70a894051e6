import Quadra.Binary64.Bits
import Quadra.Proofs.Numeric.Range
import Quadra.Proofs.Numeric.SquareRoot

set_option autoImplicit false

/-!
# The accuracy of the square root

From about `2.1 * 10 ^ (-10)` on, up to `10 ^ 9`, twenty steps are enough for a root whose square is the
number up to one part in a million. Below they are too few. The first step at the root of a small number
leads to one or more, from where every step at most halves the guess, so that it does not come down to
the root in time; at the least number of all it divides by zero, and the guesses are infinite from then
on.
-/

namespace Quadra.Numeric

open Binary64

/-! ## What is asked of a root -/

/-- The square of `r` is `x` up to one part in a million. -/
def Close (r x : Binary64) : Prop :=
  r.isFinite = true ∧ |r.value ^ 2 - x.value| ≤ x.value / 1000000

/-- The same, as a test on numbers. -/
def SquaresBack (r x : Binary64) : Prop := abs (r * r - x) ≤ 1e-6 * x

instance (r x : Binary64) : Decidable (Close r x) := inferInstanceAs (Decidable (_ ∧ _))

instance (r x : Binary64) : Decidable (SquaresBack r x) := inferInstanceAs (Decidable (_ ≤ _))

/-- The root is infinite, or its square exceeds `x` by more than one part in a million. -/
inductive Beyond (x : Binary64) : Binary64 → Prop
  | infinite : Beyond x (.infinite false)
  | finite {r : Binary64} (hr : r.isFinite = true) (hlow : 1 / 1048576 ≤ r.value)
      (h : (1 + 1000000004 / 1000000000000000) * x.value ≤ r.value ^ 2) : Beyond x r

/-! ## The test -/

/-- One part in a million, as closely as a number can be. -/
theorem millionth_spec : (1e-6 : Binary64).isFinite = true ∧
    1 / 1000000 - 1 / 1000000000000000000000 ≤ (1e-6 : Binary64).value ∧
    (1e-6 : Binary64).value ≤ 1 / 1000000 + 1 / 1000000000000000000000 := by
  have hrounds : Rounds (1e-6 : Binary64) (1e-6 : Rat) :=
    rounds_nearest (lt_overflowBound_of_moderate (by norm_num))
  obtain ⟨hlow, hhigh⟩ := hrounds.bounds_of_nonneg (by norm_num)
  refine ⟨hrounds.isFinite, ?_, ?_⟩ <;> linarith

/-- The tolerance of the test. -/
theorem tolerance_bounds {x : Binary64} (hx : x.isFinite = true) (hpos : 0 ≤ x.value)
    (hhigh : x.value ≤ 1000000000) : (1e-6 * x).isFinite = true ∧
      x.value * (1 / 1000000 - 1 / 100000000000000000000) - 1 / 1267650600228229401496703205376 ≤
        (1e-6 * x).value ∧
      (1e-6 * x).value ≤
        x.value * (1 / 1000000 + 1 / 100000000000000000000) + 1 / 1267650600228229401496703205376 := by
  obtain ⟨hfinite, hlow, hupper⟩ := millionth_spec
  have hlow' := mul_le_mul_of_nonneg_right hlow hpos
  have hupper' := mul_le_mul_of_nonneg_right hupper hpos
  have hnonneg : 0 ≤ (1e-6 : Binary64).value * x.value := mul_nonneg (by linarith) hpos
  have hproduct := rounds_mul hfinite hx (by
    rw [abs_of_nonneg hnonneg]
    exact lt_overflowBound_of_moderate (by linarith))
  obtain ⟨hlow'', hupper''⟩ := hproduct.bounds_of_nonneg hnonneg
  refine ⟨hproduct.isFinite, ?_, ?_⟩ <;> linarith

section

variable {r x : Binary64} (hx : x.isFinite = true)

include hx

/-- A root with a margin passes. -/
theorem squaresBack_of_close (hr : r.isFinite = true) (hlow : 1 / 10000000000 ≤ x.value)
    (hhigh : x.value ≤ 1000000000)
    (hclose : |r.value ^ 2 - x.value| ≤ 99999998 / 100000000000000 * x.value) : SquaresBack r x := by
  have hsquare := abs_le.mp hclose
  have hproduct := rounds_mul hr hr (by
    rw [← sq, abs_of_nonneg (sq_nonneg _)]
    exact lt_overflowBound_of_moderate (by linarith))
  rw [← sq] at hproduct
  obtain ⟨hplow, hphigh⟩ := hproduct.bounds_of_nonneg (sq_nonneg _)
  have hdistance : |(r * r).value - x.value| ≤ 99999999 / 100000000000000 * x.value := by
    rw [abs_le]
    constructor <;> linarith
  have hdifference := rounds_sub hproduct.isFinite hx (lt_overflowBound_of_moderate (by linarith))
  have herror' := abs_le.mp hdifference.error_le
  have hdistance' := abs_le.mp hdistance
  obtain ⟨hfinite, htolerance, -⟩ := tolerance_bounds hx (by linarith) hhigh
  rw [SquaresBack, le_iff_value_le (isFinite_abs hdifference.isFinite) hfinite,
    value_abs hdifference.isFinite, abs_le]
  constructor <;> linarith

/-- The square of zero is zero. -/
theorem squaresBack_zero (hzero : x.value = 0) : SquaresBack 0 x := by
  have hproduct := value_mul_of_integer isFinite_ofNat_zero isFinite_ofNat_zero (n := 0) (by norm_num)
    (by rw [value_ofNat_zero, mul_zero, Int.cast_zero])
  have hdifference := value_sub_of_integer hproduct.1 hx (n := 0) (by norm_num)
    (by rw [hproduct.2, hzero, Int.cast_zero, sub_zero])
  obtain ⟨hfinite, -, -⟩ := millionth_spec
  have htolerance := value_mul_of_integer hfinite hx (n := 0) (by norm_num)
    (by rw [hzero, mul_zero, Int.cast_zero])
  rw [SquaresBack, le_iff_value_le (isFinite_abs hdifference.1) htolerance.1, value_abs hdifference.1,
    hdifference.2, htolerance.2, Int.cast_zero, abs_zero]

omit hx in
theorem not_infinite_le {y : Binary64} (hy : y.isFinite = true) : ¬ infinite false ≤ y := by
  obtain ⟨s, m, e, h, rfl⟩ := eq_finite_of_isFinite hy
  exact Bool.false_ne_true

omit hx in
/-- A root beyond the number is not close to it. -/
theorem Beyond.not_close (hpos : 0 < x.value) (h : Beyond x r) : ¬ Close r x := by
  rintro ⟨hfinite, hclose⟩
  cases h with
  | infinite => cases hfinite
  | finite hr hlow h =>
      have habove := (abs_le.mp hclose).2
      linarith

/-- Nor does it pass, whether its square overflows or not. -/
theorem Beyond.not_squaresBack (hpos : 0 < x.value) (hhigh : x.value ≤ 1000000000) (h : Beyond x r) :
    ¬ SquaresBack r x := by
  obtain ⟨htfinite, -, htolerance⟩ := tolerance_bounds hx hpos.le hhigh
  have hinfinite : r * r = .infinite false → ¬ SquaresBack r x := by
    intro hproduct
    obtain ⟨s, m, e, hc, rfl⟩ := eq_finite_of_isFinite hx
    rw [SquaresBack, hproduct]
    exact not_infinite_le htfinite
  cases h with
  | infinite => exact hinfinite rfl
  | finite hr hlow h =>
      rcases mul_cases hr hr (by linarith) (by linarith) with hproduct | hproduct
      · exact hinfinite hproduct
      · have hsquare : 1 / 1099511627776 ≤ r.value ^ 2 := by
          calc (1 : Rat) / 1099511627776 = (1 / 1048576) ^ 2 := by norm_num
            _ ≤ r.value ^ 2 := pow_le_pow_left₀ (by norm_num) hlow 2
        rw [← sq] at hproduct
        obtain ⟨hplow, -⟩ := hproduct.bounds_of_nonneg (sq_nonneg _)
        -- the square is too large by four parts in `10 ^ 15` more than the tolerance, the roundings are less
        have hdistance : 0 ≤ (r * r).value - x.value := by linarith
        have hdifference := rounds_sub hproduct.isFinite hx (by
          rw [abs_of_nonneg hdistance]
          have hrange := abs_value_lt_overflowBound hproduct.isFinite
          linarith [le_abs_self (r * r).value])
        obtain ⟨hdlow, -⟩ := hdifference.bounds_of_nonneg hdistance
        rw [SquaresBack, le_iff_value_le (isFinite_abs hdifference.isFinite) htfinite,
          value_abs hdifference.isFinite, not_le]
        linarith [le_abs_self (r * r - x).value]

end

/-! ## Twenty steps are enough -/

/-- The envelope for the numbers from `2.10179577 * 10 ^ (-10)` to `10 ^ 9`. -/
theorem envelope_enough : envelope 19031344801 20 ≤ 1 + 99999998 / 100000000000000 := by
  decide +kernel

theorem sqrt_close {x : Binary64} (hx : x.isFinite = true)
    (hlow : 210179577 / 1000000000000000000 ≤ x.value) (hhigh : x.value ≤ 1000000000) :
    (sqrt x).isFinite = true ∧
      |(sqrt x).value ^ 2 - x.value| ≤ 99999998 / 100000000000000 * x.value := by
  have hmoderate : Moderate 19031344801 x :=
    ⟨hx, by linarith, by linarith, by norm_num, by linarith, by linarith⟩
  obtain ⟨hfinite, -, hge, hle⟩ := sqrt_bounds hmoderate
  have hle' : (sqrt x).value ^ 2 ≤ (1 + 99999998 / 100000000000000) * x.value :=
    le_trans hle (mul_le_mul_of_nonneg_right envelope_enough (by linarith))
  refine ⟨hfinite, ?_⟩
  rw [abs_le]
  constructor <;> linarith

/-! ## Twenty steps are too few -/

section

variable {x : Binary64} (hx : x.isFinite = true) (hlow : 1 / 2199023255552 ≤ x.value)

include hx hlow

/-- The first step at the root of a number that is not too small leads to one or more: the guess and its
cofactor are half the number and two. -/
theorem one_le_guess_one (hhigh : x.value ≤ 1) : 1 ≤ (guess x 1).value := by
  have hhalf := rounds_half hx
  obtain ⟨hglow, hghigh⟩ := hhalf.bounds (normal_of_moderate (by linarith))
  have hgpos : 0 < (x / 2).value := by linarith
  have hquotient : 2 - 1 / 1125899906842624 ≤ x.value / (x / 2).value := by
    rw [le_div_iff₀ hgpos]
    linarith
  have hquotient' : x.value / (x / 2).value ≤ 3 := by
    rw [div_le_iff₀ hgpos]
    linarith
  have hq := rounds_div hx hhalf.isFinite hgpos.ne' (by
    rw [abs_of_nonneg (by linarith)]
    exact lt_overflowBound_of_moderate (by linarith))
  obtain ⟨hqlow, hqhigh⟩ := hq.bounds_of_nonneg (by linarith)
  have hsum := rounds_add hhalf.isFinite hq.isFinite (by
    rw [abs_of_nonneg (by linarith)]
    exact lt_overflowBound_of_moderate (by linarith))
  -- what the quotient lacks of two is less than half the number
  have htwo := hsum.ge_of_ge isFinite_two (by rw [value_two]; linarith)
  rw [value_two] at htwo
  have hone := (rounds_half hsum.isFinite).ge_of_ge isFinite_ofNat_one (by rw [value_one]; linarith)
  rwa [value_one] at hone

variable {start : Rat} (hhigh : start * x.value ≤ 1) (hsmall : x.value ≤ 1)

include hhigh hsmall

/-- A lower bound on the ratio of the first guess but one stays a lower bound, as long as it is at least
one. -/
theorem lowerEnvelope_mul_le (k : Nat) (hfar : ∀ j < k, 1 ≤ lowerEnvelope start j) :
    lowerEnvelope start k * x.value ≤ (guess x (k + 1)).value ^ 2 := by
  have hxpos : 0 < x.value := by linarith
  have hmoderate : Moderate 17592186044416 x :=
    ⟨hx, hlow, by linarith, by norm_num, by linarith, by linarith⟩
  induction k with
  | zero =>
      have hone := one_le_guess_one hx hlow hsmall
      calc start * x.value ≤ 1 ^ 2 := by linarith
        _ ≤ (guess x 1).value ^ 2 := pow_le_pow_left₀ (by norm_num) hone 2
  | succ k ih =>
      have hone := hfar k (by omega)
      have hle := ih fun j hj => hfar j (by omega)
      obtain ⟨hstep, -⟩ := sq_refine_bounds hx hlow (guessInvariant hmoderate (k + 1)).sized
      rw [← guess_succ] at hstep
      set ratio := (guess x (k + 1)).value ^ 2 / x.value
      -- above one the mean ratio keeps the order of the two
      have hratio : lowerEnvelope start k ≤ ratio := (le_div_iff₀ hxpos).mpr hle
      have hmean := meanRatio_mono (by linarith) hratio
        (one_le_mul_of_one_le_of_one_le hone (le_trans hone hratio))
      calc lowerEnvelope start (k + 1) * x.value
          ≤ meanRatio (lowerEnvelope start k) * (1 - 1 / 562949953421312) * x.value :=
            mul_le_mul_of_nonneg_right (lowerEnvelope_succ_le start k) hxpos.le
        _ ≤ meanRatio ratio * (1 - 6 / 4503599627370496) * x.value := by
            refine mul_le_mul_of_nonneg_right (mul_le_mul hmean (by norm_num) (by norm_num) ?_) hxpos.le
            linarith [one_le_meanRatio (t := ratio) (by linarith)]
        _ = (1 - 6 / 4503599627370496) * (meanRatio ratio * x.value) := by ring
        _ ≤ (guess x (k + 1 + 1)).value ^ 2 := hstep

end

/-- The lower envelope for the numbers up to `2.10179576 * 10 ^ (-10)`. -/
theorem lowerEnvelope_beyond : (∀ j < 19, 1 ≤ lowerEnvelope 4757836222 j) ∧
    1 + 1000000004 / 1000000000000000 ≤ lowerEnvelope 4757836222 19 := by
  decide +kernel

/-- The root of a small number is beyond it. -/
theorem beyond_sqrt {x : Binary64} (hx : x.isFinite = true) (hpos : 0 < x.value)
    (hhigh : x.value ≤ 210179576 / 1000000000000000000) : Beyond x (sqrt x) := by
  have hlast := sqrt_eq_guess hx hpos
  have hatLeast := atLeast_sqrt hx hpos
  generalize sqrt x = r at hlast hatLeast ⊢
  cases hatLeast with
  | infinite => exact .infinite
  | finite hfinite hge =>
      refine .finite hfinite hge ?_
      rcases le_total (1 / 2199023255552) x.value with hlow | htiny
      · obtain ⟨hfar, hbeyond⟩ := lowerEnvelope_beyond
        rw [hlast]
        calc (1 + 1000000004 / 1000000000000000) * x.value
            ≤ lowerEnvelope 4757836222 19 * x.value := mul_le_mul_of_nonneg_right hbeyond hpos.le
          _ ≤ (guess x 20).value ^ 2 :=
              lowerEnvelope_mul_le hx hlow (by linarith) (by linarith) 19 hfar
      · -- halving alone keeps the root of such a number too large
        calc (1 + 1000000004 / 1000000000000000) * x.value ≤ (1 / 1048576) ^ 2 := by linarith
          _ ≤ r.value ^ 2 := pow_le_pow_left₀ (by norm_num) hge 2

/-! ## Accuracy -/

/-- Below zero there is no square root. -/
theorem sqrt_of_neg {x : Binary64} (h : x < 0) : sqrt x = nan := by
  rw [sqrt, if_pos h]

/-- The square root of either zero is zero. -/
theorem sqrt_of_zero {x : Binary64} (hx : x.isFinite = true) (hzero : x.value = 0) : sqrt x = 0 := by
  rw [sqrt, if_neg (by rw [lt_zero_iff hx, hzero]; exact lt_irrefl 0), if_pos ((isZero_iff hx).mpr hzero)]

/-- **The accuracy of the square root.** A number below zero has none. The root of a number up to
`10 ^ 9` squares back to one part in a million, both exactly and as a test on numbers, when the number is
zero or at least `2.10179577 * 10 ^ (-10)`; the root of a positive number up to
`2.10179576 * 10 ^ (-10)` does neither. -/
theorem sqrt_accuracy (x : Binary64) :
    (x < 0 → sqrt x = nan) ∧
      (x.isFinite = true → x.value = 0 ∨ 210179577 / 10 ^ 18 ≤ x.value → x.value ≤ 10 ^ 9 →
        Close (sqrt x) x ∧ SquaresBack (sqrt x) x) ∧
      (x.isFinite = true → 0 < x.value → x.value ≤ 210179576 / 10 ^ 18 →
        ¬ Close (sqrt x) x ∧ ¬ SquaresBack (sqrt x) x) := by
  refine ⟨sqrt_of_neg, ?_, ?_⟩
  · intro hx hlow hhigh
    norm_num at hlow hhigh
    rcases hlow with hzero | hlow
    · rw [sqrt_of_zero hx hzero]
      refine ⟨⟨isFinite_ofNat_zero, ?_⟩, squaresBack_zero hx hzero⟩
      rw [value_ofNat_zero, hzero]
      norm_num
    · have hlow' : 210179577 / 1000000000000000000 ≤ x.value := by linarith
      obtain ⟨hfinite, hclose⟩ := sqrt_close hx hlow' hhigh
      refine ⟨⟨hfinite, le_trans hclose ?_⟩, ?_⟩
      · linarith
      · exact squaresBack_of_close hx hfinite (by linarith) hhigh hclose
  · intro hx hpos hhigh
    have hbeyond := beyond_sqrt hx hpos (le_trans hhigh (by norm_num))
    have hmoderate : (210179576 / 10 ^ 18 : Rat) ≤ 1000000000 := by norm_num
    exact ⟨hbeyond.not_close hpos, hbeyond.not_squaresBack hx hpos (le_trans hhigh hmoderate)⟩

/-- The root of two. -/
theorem sqrt_accuracy_two : (2 : Binary64).isFinite = true ∧
    ((2 : Binary64).value = 0 ∨ 210179577 / 10 ^ 18 ≤ (2 : Binary64).value) ∧
    (2 : Binary64).value ≤ 10 ^ 9 ∧ Close (sqrt 2) 2 ∧ SquaresBack (sqrt 2) 2 := by
  have hlow : (2 : Binary64).value = 0 ∨ 210179577 / 10 ^ 18 ≤ (2 : Binary64).value := by
    right
    rw [value_two]
    norm_num
  have hhigh : (2 : Binary64).value ≤ 10 ^ 9 := by
    rw [value_two]
    norm_num
  exact ⟨isFinite_two, hlow, hhigh, (sqrt_accuracy 2).2.1 isFinite_two hlow hhigh⟩

/-- The root of `2 ^ (-80)` is given as more than a million times `2 ^ (-40)`. -/
theorem sqrt_of_small_power : (ofBits 4246894448610377728).isFinite = true ∧
    (ofBits 4246894448610377728).value = 1 / 2 ^ 80 ∧
    1000000 * (1 / 2 ^ 40) < (sqrt (ofBits 4246894448610377728)).value ∧
    ¬ Close (sqrt (ofBits 4246894448610377728)) (ofBits 4246894448610377728) ∧
    ¬ SquaresBack (sqrt (ofBits 4246894448610377728)) (ofBits 4246894448610377728) := by
  decide +kernel

end Quadra.Numeric
