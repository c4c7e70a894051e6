import Quadra.Numeric.SquareRoot
import Quadra.Proofs.Binary64.Error

set_option autoImplicit false

/-!
# Newton steps

The guesses at a square root are compared with the exact one by the ratio of their squares to the
number. An exact Newton step takes the ratio `t` to `(t + 1)² / (4 t)`, and its three roundings change
this by less than one part in `2 ^ 49`, so that an `envelope` of rationals bounds the ratio of every
guess.
-/

namespace Quadra.Numeric

open Binary64

/-! ## Ratios -/

/-- The ratio of the square of a guess to the number after one exact step from the ratio `t`. -/
def meanRatio (t : Rat) : Rat := (t + 1) * (t + 1) / (4 * t)

theorem one_le_meanRatio {t : Rat} (ht : 0 < t) : 1 ≤ meanRatio t := by
  rw [meanRatio, one_le_div (by positivity)]
  nlinarith [sq_nonneg (t - 1)]

/-- A step keeps the order of two ratios as long as the greater one is farther from one. -/
theorem meanRatio_mono {t u : Rat} (ht : 0 < t) (h : t ≤ u) (hfar : 1 ≤ t * u) :
    meanRatio t ≤ meanRatio u := by
  have hu : 0 < u := lt_of_lt_of_le ht h
  rw [meanRatio, meanRatio, div_le_div_iff₀ (by positivity) (by positivity)]
  have hfactored : (u + 1) * (u + 1) * (4 * t) - (t + 1) * (t + 1) * (4 * u) =
      4 * ((u - t) * (t * u - 1)) := by ring
  have := mul_nonneg (sub_nonneg.mpr h) (sub_nonneg.mpr hfar)
  linarith

/-- The mean of a guess and its cofactor has the ratio after one step. -/
theorem sq_mean_eq {x g : Rat} (hx : 0 < x) (hg : 0 < g) :
    ((g + x / g) / 2) ^ 2 = meanRatio (g ^ 2 / x) * x := by
  rw [meanRatio]
  field_simp
  ring

/-- Bounds on the ratios of the guesses from a bound on the first: each is one step further, with a
margin for the roundings, and rounded up to a multiple of `2 ^ (-60)`. -/
def envelope (start : Rat) : Nat → Rat
  | 0 => start
  | k + 1 => (meanRatio (envelope start k) * (1 + 1 / 562949953421312) * 1152921504606846976).ceil /
      1152921504606846976

theorem le_envelope_succ (start : Rat) (k : Nat) :
    meanRatio (envelope start k) * (1 + 1 / 562949953421312) ≤ envelope start (k + 1) := by
  rw [envelope, le_div_iff₀ (by norm_num)]
  exact Rat.le_ceil

/-- The envelope keeps its margin above one. -/
theorem one_lt_envelope {start : Rat} (hstart : 1 + 1 / 562949953421312 ≤ start) (k : Nat) :
    1 + 1 / 562949953421312 ≤ envelope start k := by
  cases k with
  | zero => exact hstart
  | succ k =>
      have ih := one_lt_envelope hstart k
      have hmean := one_le_meanRatio (t := envelope start k) (by linarith)
      have hstep := le_envelope_succ start k
      linarith

/-- Lower bounds on the ratios from one on the first, with the margin below and rounded down. -/
def lowerEnvelope (start : Rat) : Nat → Rat
  | 0 => start
  | k + 1 => (meanRatio (lowerEnvelope start k) * (1 - 1 / 562949953421312) *
      1152921504606846976).floor / 1152921504606846976

theorem lowerEnvelope_succ_le (start : Rat) (k : Nat) :
    lowerEnvelope start (k + 1) ≤ meanRatio (lowerEnvelope start k) * (1 - 1 / 562949953421312) := by
  rw [lowerEnvelope, div_le_iff₀ (by norm_num)]
  exact Rat.floor_le _

/-! ## One step -/

/-- A guess at the square root of `x` that is of moderate size, as is its cofactor. -/
structure Sized (x g : Binary64) : Prop where
  isFinite : g.isFinite = true
  least_le : 1 / 8796093022208 ≤ g.value
  le_limit : g.value ≤ 2199023255552
  cofactor_le : x.value ≤ 274877906944 * g.value

section

variable {x g : Binary64} (hx : x.isFinite = true) (hleast : 1 / 2199023255552 ≤ x.value)
  (hg : Sized x g)

include hx hleast hg

/-- A step on numbers of moderate size is the exact mean up to three roundings. -/
theorem refine_bounds : (refine x g).isFinite = true ∧
    (g.value + x.value / g.value) / 2 * (1 - 1 / 4503599627370496) ^ 3 ≤ (refine x g).value ∧
    (refine x g).value ≤ (g.value + x.value / g.value) / 2 * (1 + 1 / 4503599627370496) ^ 3 := by
  obtain ⟨hgfinite, hg₁, hg₂, hcofactor⟩ := hg
  have hgpos : 0 < g.value := by linarith
  -- the quotient
  have hq₁ : 1 / 4835703278458516698824704 ≤ x.value / g.value := by
    rw [le_div_iff₀ hgpos]
    linarith
  have hq₂ : x.value / g.value ≤ 274877906944 := (div_le_iff₀ hgpos).mpr hcofactor
  have hquotient := rounds_div hx hgfinite hgpos.ne'
    (lt_overflowBound_of_moderate (by rw [abs_of_pos (by linarith)]; linarith))
  obtain ⟨hqlow, hqhigh⟩ := hquotient.bounds (normal_of_moderate (by linarith))
  -- the sum
  have hsum := rounds_add hgfinite hquotient.isFinite
    (lt_overflowBound_of_moderate (by rw [abs_of_pos (by linarith)]; linarith))
  obtain ⟨hslow, hshigh⟩ := hsum.bounds (normal_of_moderate (by linarith))
  -- the half
  have hhalf := rounds_half hsum.isFinite
  obtain ⟨hhlow, hhhigh⟩ := hhalf.bounds (normal_of_moderate (by linarith))
  refine ⟨hhalf.isFinite, ?_, ?_⟩
  · refine le_trans ?_ hhlow
    linarith
  · refine le_trans hhhigh ?_
    linarith

/-- So the ratio after it is the mean ratio up to a margin. -/
theorem sq_refine_bounds :
    (1 - 6 / 4503599627370496) * (meanRatio (g.value ^ 2 / x.value) * x.value) ≤ (refine x g).value ^ 2 ∧
      (refine x g).value ^ 2 ≤
        (1 + 1 / 562949953421312) * (meanRatio (g.value ^ 2 / x.value) * x.value) := by
  obtain ⟨-, hlow, hhigh⟩ := refine_bounds hx hleast hg
  have hgpos : 0 < g.value := by linarith [hg.least_le]
  have hxpos : 0 < x.value := by linarith
  rw [← sq_mean_eq hxpos hgpos]
  set mean := (g.value + x.value / g.value) / 2
  have hmean : 0 < mean := by positivity
  have hlow' : (0 : Rat) ≤ mean * (1 - 1 / 4503599627370496) ^ 3 := by positivity
  constructor
  · calc (1 - 6 / 4503599627370496) * mean ^ 2
        ≤ (1 - 1 / 4503599627370496) ^ 6 * mean ^ 2 :=
          mul_le_mul_of_nonneg_right (by norm_num) (sq_nonneg mean)
      _ = (mean * (1 - 1 / 4503599627370496) ^ 3) ^ 2 := by ring
      _ ≤ (refine x g).value ^ 2 := pow_le_pow_left₀ hlow' hlow 2
  · calc (refine x g).value ^ 2 ≤ (mean * (1 + 1 / 4503599627370496) ^ 3) ^ 2 :=
          pow_le_pow_left₀ (by linarith) hhigh 2
      _ = (1 + 1 / 4503599627370496) ^ 6 * mean ^ 2 := by ring
      _ ≤ (1 + 1 / 562949953421312) * mean ^ 2 :=
          mul_le_mul_of_nonneg_right (by norm_num) (sq_nonneg mean)

/-- The guess after it is again of moderate size, since the exact mean is at least the root. -/
theorem Sized.refine (hlimit : x.value ≤ 68719476736) : Sized x (refine x g) := by
  obtain ⟨hfinite, hlow, hhigh⟩ := refine_bounds hx hleast hg
  obtain ⟨-, hlower, hupper, hcofactor⟩ := hg
  have hgpos : 0 < g.value := by linarith
  have hxpos : 0 < x.value := by linarith
  have hroot : x.value ≤ ((g.value + x.value / g.value) / 2) ^ 2 := by
    rw [sq_mean_eq hxpos hgpos]
    exact le_mul_of_one_le_left hxpos.le (one_le_meanRatio (by positivity))
  have hcofactor' : x.value / g.value ≤ 274877906944 := (div_le_iff₀ hgpos).mpr hcofactor
  have hmean_le : (g.value + x.value / g.value) / 2 ≤ 1236950581248 := by linarith
  set mean := (g.value + x.value / g.value) / 2
  have hmean : 0 < mean := by positivity
  have hleast' : 1 / 2097152 ≤ mean :=
    le_of_pow_le_pow_left₀ two_ne_zero hmean.le (by linarith)
  have hmoderate : x.value ≤ 262144 * mean := by
    refine le_of_pow_le_pow_left₀ two_ne_zero (by positivity) ?_
    calc x.value ^ 2 = x.value * x.value := sq x.value
      _ ≤ 68719476736 * mean ^ 2 := mul_le_mul hlimit hroot hxpos.le (by norm_num)
      _ = (262144 * mean) ^ 2 := by ring
  refine ⟨hfinite, ?_, ?_, ?_⟩ <;> linarith

end

/-! ## All steps -/

/-- The guess after this many steps. -/
def guess (x : Binary64) (k : Nat) : Binary64 := Nat.repeat (refine x) k (x / 2)

theorem guess_succ (x : Binary64) (k : Nat) : guess x (k + 1) = refine x (guess x k) := rfl

/-- A lower bound on the ratio of a guess: from the first step on, only the roundings can bring it
below one. -/
def leastRatio (start : Rat) : Nat → Rat
  | 0 => 1 / start
  | _ + 1 => 1 - 6 / 4503599627370496

theorem one_le_leastRatio_mul_envelope {start : Rat} (hstart : 1 + 1 / 562949953421312 ≤ start) (k : Nat) :
    1 ≤ leastRatio start k * envelope start k := by
  cases k with
  | zero =>
      rw [leastRatio, envelope, one_div_mul_cancel]
      linarith
  | succ k =>
      have henvelope := one_lt_envelope hstart (k + 1)
      rw [leastRatio]
      linarith

/-- What is known of the guess after `k` steps at the square root of `x`, when the ratio of the first
is at most `start` and at least its inverse. -/
structure GuessInvariant (start : Rat) (x : Binary64) (k : Nat) : Prop where
  sized : Sized x (guess x k)
  ratio_ge : leastRatio start k * x.value ≤ (guess x k).value ^ 2
  ratio_le : (guess x k).value ^ 2 ≤ envelope start k * x.value

/-- A number whose square root is approached within the envelope of `start`. -/
structure Moderate (start : Rat) (x : Binary64) : Prop where
  isFinite : x.isFinite = true
  least_le : 1 / 2199023255552 ≤ x.value
  le_limit : x.value ≤ 68719476736
  margin_le : 1 + 1 / 562949953421312 ≤ start
  le_start : x.value * (1 + 1 / 562949953421312) ≤ 4 * start
  start_le : 4 * (1 + 1 / 562949953421312) ≤ start * x.value

section

variable {start : Rat} {x : Binary64}

/-- The square of the first guess, as bounds. -/
theorem sq_half_bounds (hx : x.isFinite = true) (hleast : 1 / 2199023255552 ≤ x.value) :
    x.value ^ 2 / (4 * (1 + 1 / 562949953421312)) ≤ (x / 2).value ^ 2 ∧
      (x / 2).value ^ 2 ≤ x.value ^ 2 * (1 + 1 / 562949953421312) / 4 := by
  obtain ⟨hlow, hhigh⟩ := (rounds_half hx).bounds (normal_of_moderate (by linarith))
  constructor
  · calc x.value ^ 2 / (4 * (1 + 1 / 562949953421312))
        = x.value ^ 2 * (1 / (4 * (1 + 1 / 562949953421312))) := by ring
      _ ≤ x.value ^ 2 * ((1 - 1 / 4503599627370496) ^ 2 / 4) :=
          mul_le_mul_of_nonneg_left (by norm_num) (sq_nonneg _)
      _ = (x.value / 2 * (1 - 1 / 4503599627370496)) ^ 2 := by ring
      _ ≤ (x / 2).value ^ 2 := pow_le_pow_left₀ (by linarith) hlow 2
  · calc (x / 2).value ^ 2
        ≤ (x.value / 2 * (1 + 1 / 4503599627370496)) ^ 2 := pow_le_pow_left₀ (by linarith) hhigh 2
      _ = x.value ^ 2 * ((1 + 1 / 4503599627370496) ^ 2 / 4) := by ring
      _ ≤ x.value ^ 2 * ((1 + 1 / 562949953421312) / 4) :=
          mul_le_mul_of_nonneg_left (by norm_num) (sq_nonneg _)
      _ = x.value ^ 2 * (1 + 1 / 562949953421312) / 4 := by ring

/-- The first guess is half the number, which is a quarter of it in ratio. -/
theorem guessInvariant_zero (h : Moderate start x) : GuessInvariant start x 0 := by
  have hleast := h.least_le
  have hlimit := h.le_limit
  have hhalf := rounds_half h.isFinite
  obtain ⟨hlow, hhigh⟩ := hhalf.bounds (normal_of_moderate (by linarith))
  obtain ⟨hsquare, hsquare'⟩ := sq_half_bounds h.isFinite hleast
  have hstart : 0 < start := by linarith [h.margin_le]
  refine ⟨⟨hhalf.isFinite, ?_, ?_, ?_⟩, ?_, ?_⟩
  · show 1 / 8796093022208 ≤ (x / 2).value
    linarith
  · show (x / 2).value ≤ 2199023255552
    linarith
  · show x.value ≤ 274877906944 * (x / 2).value
    linarith
  · show 1 / start * x.value ≤ (x / 2).value ^ 2
    refine le_trans ?_ hsquare
    rw [one_div_mul_eq_div, div_le_div_iff₀ hstart (by norm_num), sq, mul_assoc, mul_comm x.value start]
    exact mul_le_mul_of_nonneg_left h.start_le (by linarith)
  · show (x / 2).value ^ 2 ≤ start * x.value
    calc (x / 2).value ^ 2 ≤ x.value * (1 + 1 / 562949953421312) / 4 * x.value := by linarith
      _ ≤ start * x.value := mul_le_mul_of_nonneg_right (by linarith [h.le_start]) (by linarith)

/-- A step keeps the invariant. -/
theorem guessInvariant_succ (h : Moderate start x) {k : Nat} (hk : GuessInvariant start x k) :
    GuessInvariant start x (k + 1) := by
  obtain ⟨hsized, hge, hle⟩ := hk
  have hgpos : 0 < (guess x k).value := by linarith [hsized.least_le]
  have hxpos : 0 < x.value := by linarith [h.least_le]
  obtain ⟨hlow, hhigh⟩ := sq_refine_bounds h.isFinite h.least_le hsized
  rw [← guess_succ] at hlow hhigh
  set ratio := (guess x k).value ^ 2 / x.value
  have hratio : 0 < ratio := by positivity
  have hratio_le : ratio ≤ envelope start k := (div_le_iff₀ hxpos).mpr hle
  have hfar : 1 ≤ ratio * envelope start k := by
    calc 1 ≤ leastRatio start k * envelope start k := one_le_leastRatio_mul_envelope h.margin_le k
      _ ≤ ratio * envelope start k := by
          refine mul_le_mul_of_nonneg_right ((le_div_iff₀ hxpos).mpr hge) ?_
          linarith [one_lt_envelope h.margin_le k]
  refine ⟨hsized.refine h.isFinite h.least_le h.le_limit, ?_, ?_⟩
  · calc leastRatio start (k + 1) * x.value
        = (1 - 6 / 4503599627370496) * (1 * x.value) := by rw [leastRatio, one_mul]
      _ ≤ (1 - 6 / 4503599627370496) * (meanRatio ratio * x.value) :=
          mul_le_mul_of_nonneg_left
            (mul_le_mul_of_nonneg_right (one_le_meanRatio hratio) hxpos.le) (by norm_num)
      _ ≤ (guess x (k + 1)).value ^ 2 := hlow
  · calc (guess x (k + 1)).value ^ 2
        ≤ (1 + 1 / 562949953421312) * (meanRatio ratio * x.value) := hhigh
      _ = meanRatio ratio * ((1 + 1 / 562949953421312) * x.value) := by ring
      _ ≤ meanRatio (envelope start k) * ((1 + 1 / 562949953421312) * x.value) :=
          mul_le_mul_of_nonneg_right (meanRatio_mono hratio hratio_le hfar) (by positivity)
      _ = meanRatio (envelope start k) * (1 + 1 / 562949953421312) * x.value := by ring
      _ ≤ envelope start (k + 1) * x.value :=
          mul_le_mul_of_nonneg_right (le_envelope_succ start k) hxpos.le

/-- The invariant holds after every number of steps. -/
theorem guessInvariant (h : Moderate start x) (k : Nat) : GuessInvariant start x k := by
  induction k with
  | zero => exact guessInvariant_zero h
  | succ k ih => exact guessInvariant_succ h ih

/-- The square root of a positive number is the last guess. -/
theorem sqrt_eq_guess (hx : x.isFinite = true) (hpos : 0 < x.value) : sqrt x = guess x 20 := by
  have hnonneg : ¬ x < 0 := by
    rw [lt_zero_iff hx]
    exact not_lt.mpr hpos.le
  have hne : x.isZero = false := by
    rw [← Bool.not_eq_true, isZero_iff hx]
    exact hpos.ne'
  rw [sqrt, if_neg hnonneg, hne]
  rfl

end

end Quadra.Numeric
