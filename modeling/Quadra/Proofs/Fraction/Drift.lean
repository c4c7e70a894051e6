import Mathlib.Algebra.Order.Floor.Semiring
import Quadra.Proofs.Fraction.Convergents

set_option autoImplicit false

/-!
# Drift of an expansion

Every term of an expansion rounds the reciprocal of what is left, so what is left is no longer exactly
that of the number. `Ready` says how far it has drifted after `n` terms. While no convergent is near the
number, the reciprocals stay moderate; and since convergents grow like the Fibonacci numbers, there are
at most 23 terms in front of a near one.
-/

namespace Quadra.Fraction

open Continuants

/-- After `n` terms of the expansion of `X`, none of whose convergents was near, `t` is left: the number
with these convergents and then `t` differs from `X` by at most one part in `2 ^ 50` a term. -/
structure Ready (X : Rat) (n : Nat) (w : Continuants) (t : Rat) : Prop where
  unimodular : w.Unimodular
  grown : w.Grown n
  nonneg : 0 ≤ t
  first : 1 ≤ t ∨ n = 0 ∧ w = start
  drift : |w.numer t - X * w.denom t| ≤ n / 1125899906842624 * (X * w.denom t)
  numer_le : w.numer t ≤ 4503599627370496
  denom_le : w.denom t ≤ 1100000000
  product_le : w.k * w.numer t ≤ 1040000000

theorem ready_start {X : Rat} (hX : 0 ≤ X) (hX' : X ≤ 4503599627370496) : Ready X 0 start X where
  unimodular := unimodular_start
  grown := grown_start
  nonneg := hX
  first := .inr ⟨rfl, rfl⟩
  drift := by simp [Continuants.numer, Continuants.denom, start]
  numer_le := by simpa [Continuants.numer, start] using hX'
  denom_le := by norm_num [Continuants.denom, start]
  product_le := by simp [start]

/-- How far a fraction is from `X`, given its cross product with another fraction. -/
theorem abs_sub_mul_le {p q p' q' : Rat} (X : Rat) (hq : 0 ≤ q) (hq' : 0 ≤ q') :
    |p - X * q| * q' ≤ |p * q' - q * p'| + q * |p' - X * q'| := by
  calc |p - X * q| * q' = |p * q' - q * p' + q * (p' - X * q')| := by
        rw [← abs_of_nonneg hq', ← abs_mul, abs_of_nonneg hq']
        congr 1
        ring
    _ ≤ |p * q' - q * p'| + |q * (p' - X * q')| := abs_add_le _ _
    _ = |p * q' - q * p'| + q * |p' - X * q'| := by rw [abs_mul, abs_of_nonneg hq]

/-! ## The number and its next convergent -/

theorem fract_lt_one (t : Rat) : t - ⌊t⌋₊ < 1 := by
  rw [sub_lt_iff_lt_add']
  exact Nat.lt_floor_add_one t

theorem numer_eq (w : Continuants) (t : Rat) :
    w.numer t = (w.advance ⌊t⌋₊).h + (t - ⌊t⌋₊) * w.h := by
  rw [← numer_eq_advance, add_sub_cancel]

theorem denom_eq (w : Continuants) (t : Rat) :
    w.denom t = (w.advance ⌊t⌋₊).k + (t - ⌊t⌋₊) * w.k := by
  rw [← denom_eq_advance, add_sub_cancel]

namespace Ready

variable {X : Rat} {n : Nat} {w : Continuants} {t : Rat} (hr : Ready X n w t)

include hr

/-! ## Size -/

/-- The product of a denominator and the next numerator is at least the square of a Fibonacci number. -/
theorem length_le : n ≤ 23 := by
  by_contra hlong
  rcases hr.first with ht | ⟨rfl, -⟩
  · have hfib : 46368 ≤ Nat.fib n := by
      calc 46368 = Nat.fib 24 := by decide +kernel
        _ ≤ Nat.fib n := Nat.fib_mono (by omega)
    have hk : (46368 : Rat) ≤ w.k := by exact_mod_cast le_trans hfib hr.grown.k
    have hh : (46368 : Rat) ≤ w.h + w.h₀ := by exact_mod_cast le_trans hfib hr.grown.sum_h
    have hnumer : (46368 : Rat) ≤ w.numer t := by
      have hmul : (w.h : Rat) * 1 ≤ w.h * t := mul_le_mul_of_nonneg_left ht (Nat.cast_nonneg _)
      rw [Continuants.numer]
      linarith
    have hproduct : (46368 : Rat) * 46368 ≤ w.k * w.numer t :=
      mul_le_mul hk hnumer (by norm_num) (Nat.cast_nonneg _)
    linarith [hr.product_le]
  · omega

theorem grown_advance : (w.advance ⌊t⌋₊).Grown (n + 1) := by
  rcases hr.first with ht | ⟨rfl, rfl⟩
  · exact hr.grown.advance (Nat.le_floor (by exact_mod_cast ht))
  · exact grown_start_advance _

theorem one_le_k_advance : (1 : Rat) ≤ (w.advance ⌊t⌋₊).k := by
  have hpos : 0 < Nat.fib (n + 1) := Nat.fib_pos.mpr (Nat.succ_pos n)
  exact_mod_cast le_trans hpos hr.grown_advance.k

theorem fract_nonneg : 0 ≤ t - ⌊t⌋₊ := sub_nonneg.mpr (Nat.floor_le hr.nonneg)

theorem h_advance_le : ((w.advance ⌊t⌋₊).h : Rat) ≤ w.numer t := by
  rw [numer_eq]
  exact le_add_of_nonneg_right (mul_nonneg hr.fract_nonneg (Nat.cast_nonneg _))

theorem k_advance_le : ((w.advance ⌊t⌋₊).k : Rat) ≤ w.denom t := by
  rw [denom_eq]
  exact le_add_of_nonneg_right (mul_nonneg hr.fract_nonneg (Nat.cast_nonneg _))

theorem h_advance_small : (w.advance ⌊t⌋₊).h ≤ 4503599627370496 := by
  exact_mod_cast le_trans hr.h_advance_le hr.numer_le

theorem k_advance_small : (w.advance ⌊t⌋₊).k ≤ 1100000000 := by
  exact_mod_cast le_trans hr.k_advance_le hr.denom_le

theorem one_le_denom : 1 ≤ w.denom t := le_trans hr.one_le_k_advance hr.k_advance_le

theorem fract_le_numer : t - ⌊t⌋₊ ≤ w.numer t := by
  have hsum : (1 : Rat) ≤ (w.advance ⌊t⌋₊).h + w.h := by
    have hpos : 0 < Nat.fib (n + 1) := Nat.fib_pos.mpr (Nat.succ_pos n)
    exact_mod_cast le_trans hpos hr.grown_advance.sum_h
  have hpart : (t - ⌊t⌋₊) * (w.advance ⌊t⌋₊).h ≤ 1 * (w.advance ⌊t⌋₊).h :=
    mul_le_mul_of_nonneg_right (fract_lt_one t).le (Nat.cast_nonneg _)
  have hwhole : (t - ⌊t⌋₊) * 1 ≤ (t - ⌊t⌋₊) * ((w.advance ⌊t⌋₊).h + w.h) :=
    mul_le_mul_of_nonneg_left hsum hr.fract_nonneg
  rw [numer_eq]
  linarith

theorem le_denom_advance {t' : Rat} (ht' : 0 ≤ t') : t' ≤ (w.advance ⌊t⌋₊).denom t' := by
  have hmul : 1 * t' ≤ (w.advance ⌊t⌋₊).k * t' := mul_le_mul_of_nonneg_right hr.one_le_k_advance ht'
  have hk₀ : (0 : Rat) ≤ (w.advance ⌊t⌋₊).k₀ := Nat.cast_nonneg _
  rw [Continuants.denom]
  linarith

/-- A rounded reciprocal changes the number by its rounding error only. -/
theorem abs_cross_advance_le {t' : Rat} (hlow : 1 - 1 / 4503599627370496 ≤ (t - ⌊t⌋₊) * t')
    (hhigh : (t - ⌊t⌋₊) * t' ≤ 1 + 1 / 4503599627370496) :
    |(w.advance ⌊t⌋₊).numer t' * w.denom t - (w.advance ⌊t⌋₊).denom t' * w.numer t| ≤
      1 / 4503599627370496 := by
  have h := numer_mul_denom_sub w ⌊t⌋₊ (t - ⌊t⌋₊) t'
  rw [show (⌊t⌋₊ : Rat) + (t - ⌊t⌋₊) = t from add_sub_cancel _ _] at h
  rw [h, abs_mul, (hr.unimodular.advance _).abs_cast_cross, mul_one, abs_le]
  constructor <;> linarith

/-- A convergent in front of which `h` is zero is the first one, and `h` before it is one. -/
theorem h_cases : (1 : Rat) ≤ (w.advance ⌊t⌋₊).h ∨ (w.advance ⌊t⌋₊).h = 0 ∧ w.h = 1 := by
  rcases Nat.eq_zero_or_pos (w.advance ⌊t⌋₊).h with hzero | hpos
  · refine .inr ⟨hzero, ?_⟩
    have hcoprime := (hr.unimodular.advance ⌊t⌋₊)
    rw [Unimodular, cross, hzero, Nat.cast_zero, zero_mul, zero_sub, abs_neg] at hcoprime
    have hone : w.h * (w.advance ⌊t⌋₊).k = 1 := by exact_mod_cast hcoprime
    exact Nat.eq_one_of_mul_eq_one_right hone
  · exact .inl (by exact_mod_cast hpos)

/-! ## The drift so far -/

variable (hX : 99 / 100000000000 ≤ X)

include hX

theorem le_mul_denom : 99 / 100000000000 ≤ X * w.denom t := by
  calc (99 / 100000000000 : Rat) ≤ X * 1 := by rwa [mul_one]
    _ ≤ X * w.denom t := mul_le_mul_of_nonneg_left hr.one_le_denom (by linarith)

/-- The drift is at most one part in `10 ^ 13`. -/
theorem drift_le : |w.numer t - X * w.denom t| ≤ X * w.denom t / 10000000000000 := by
  have hlength : (n : Rat) ≤ 23 := by exact_mod_cast hr.length_le
  have hpos := hr.le_mul_denom hX
  have hpart : (n : Rat) / 1125899906842624 ≤ 1 / 10000000000000 := by
    rw [div_le_div_iff₀ (by norm_num) (by norm_num)]
    linarith
  calc |w.numer t - X * w.denom t| ≤ n / 1125899906842624 * (X * w.denom t) := hr.drift
    _ ≤ 1 / 10000000000000 * (X * w.denom t) := mul_le_mul_of_nonneg_right hpart (by linarith)
    _ = X * w.denom t / 10000000000000 := by ring

/-! ## One more term -/

/-- The reciprocal of what is left adds its rounding error to the drift. -/
theorem drift_advance {t' : Rat} (ht' : 1 ≤ t') (hlow : 1 - 1 / 4503599627370496 ≤ (t - ⌊t⌋₊) * t')
    (hhigh : (t - ⌊t⌋₊) * t' ≤ 1 + 1 / 4503599627370496) :
    |(w.advance ⌊t⌋₊).numer t' - X * (w.advance ⌊t⌋₊).denom t'| ≤
      (n + 1 : Nat) / 1125899906842624 * (X * (w.advance ⌊t⌋₊).denom t') := by
  set w' := w.advance ⌊t⌋₊
  set f := t - ⌊t⌋₊
  have hdenom := hr.one_le_denom
  have hf := hr.fract_nonneg
  have hdenom' : t' ≤ w'.denom t' := hr.le_denom_advance (by linarith)
  have hlarge : 1 / 4 ≤ w'.denom t' * (X * w.denom t) := by
    have hdrift := (abs_le.mp (hr.drift_le hX)).2
    have hhalf : f / 2 ≤ X * w.denom t := by linarith [hr.le_mul_denom hX, hr.fract_le_numer]
    calc (1 / 4 : Rat) ≤ t' * (f / 2) := by linarith
      _ ≤ w'.denom t' * (X * w.denom t) := mul_le_mul hdenom' hhalf (by linarith) (by linarith)
  refine le_of_mul_le_mul_right ?_ (by linarith : 0 < w.denom t)
  calc |w'.numer t' - X * w'.denom t'| * w.denom t
      ≤ |w'.numer t' * w.denom t - w'.denom t' * w.numer t| +
          w'.denom t' * |w.numer t - X * w.denom t| :=
        abs_sub_mul_le X (by linarith) (by linarith)
    _ ≤ 1 / 4503599627370496 +
          w'.denom t' * (n / 1125899906842624 * (X * w.denom t)) :=
        add_le_add (hr.abs_cross_advance_le hlow hhigh) (mul_le_mul_of_nonneg_left hr.drift (by linarith))
    _ ≤ (n + 1 : Nat) / 1125899906842624 * (X * w'.denom t') * w.denom t := by
        push_cast
        linarith

/-- The denominator is at most the product, or that of the number when the numerator is one. -/
theorem denom_advance_le {t' : Rat}
    (hdrift : |(w.advance ⌊t⌋₊).numer t' - X * (w.advance ⌊t⌋₊).denom t'| ≤
      (n + 1 : Nat) / 1125899906842624 * (X * (w.advance ⌊t⌋₊).denom t'))
    (hproduct : (w.advance ⌊t⌋₊).k * (w.advance ⌊t⌋₊).numer t' ≤ 1040000000) (ht' : 0 ≤ t') :
    (w.advance ⌊t⌋₊).denom t' ≤ 1100000000 := by
  have hdenom₀ : 0 ≤ (w.advance ⌊t⌋₊).denom t' := le_trans ht' (hr.le_denom_advance ht')
  rcases hr.h_cases with hone | ⟨hzero, hone⟩
  · -- the products of the parts across differ by one
    have hcross := h_mul_denom_sub_k_mul_numer (w.advance ⌊t⌋₊) t'
    have habs := abs_le.mp (hr.unimodular.advance ⌊t⌋₊).abs_cast_cross.le
    have hmul := mul_le_mul_of_nonneg_right hone hdenom₀
    linarith
  · have hlength : ((n + 1 : Nat) : Rat) ≤ 24 := by exact_mod_cast Nat.succ_le_succ hr.length_le
    have hvalue : (w.advance ⌊t⌋₊).numer t' = 1 := by
      rw [Continuants.numer, hzero, Nat.cast_zero, zero_mul, zero_add]
      exact_mod_cast hone
    rw [hvalue] at hdrift
    have hmoderate := mul_le_mul_of_nonneg_right hX hdenom₀
    have hpart : ((n + 1 : Nat) : Rat) / 1125899906842624 * (X * (w.advance ⌊t⌋₊).denom t') ≤
        24 / 1125899906842624 * (X * (w.advance ⌊t⌋₊).denom t') :=
      mul_le_mul_of_nonneg_right (div_le_div_of_nonneg_right hlength (by norm_num))
        (mul_nonneg (by linarith) hdenom₀)
    linarith [(abs_le.mp hdrift).1]

variable (hfar : 99 / 100000000000 * (X * (w.advance ⌊t⌋₊).k) ≤
  |(w.advance ⌊t⌋₊).h - X * (w.advance ⌊t⌋₊).k|)

include hfar

/-- A convergent that is not near the number has a small denominator. -/
theorem k_mul_denom_le : (w.advance ⌊t⌋₊).k * (X * w.denom t) ≤ 1020000000 * (t - ⌊t⌋₊) := by
  set w' := w.advance ⌊t⌋₊
  set f := t - ⌊t⌋₊
  have hk : (0 : Rat) ≤ w'.k := Nat.cast_nonneg _
  have hdenom := hr.one_le_denom
  have hmiss : |w'.h * w.denom t - w'.k * w.numer t| = f := by
    have h := h_mul_denom_sub w ⌊t⌋₊ f
    rw [show (⌊t⌋₊ : Rat) + f = t from add_sub_cancel _ _] at h
    rw [h, abs_mul, (hr.unimodular.advance _).abs_cast_cross, mul_one, abs_of_nonneg hr.fract_nonneg]
  have hsplit : |w'.h - X * w'.k| * w.denom t ≤ f + w'.k * (X * w.denom t / 10000000000000) := by
    calc |w'.h - X * w'.k| * w.denom t
        ≤ |w'.h * w.denom t - w'.k * w.numer t| + w'.k * |w.numer t - X * w.denom t| :=
          abs_sub_mul_le X hk (by linarith)
      _ = f + w'.k * |w.numer t - X * w.denom t| := by rw [hmiss]
      _ ≤ f + w'.k * (X * w.denom t / 10000000000000) :=
          add_le_add_right (mul_le_mul_of_nonneg_left (hr.drift_le hX) hk) _
  have hscaled := mul_le_mul_of_nonneg_right hfar (by linarith : 0 ≤ w.denom t)
  have hf : 0 ≤ f := hr.fract_nonneg
  linarith

theorem k_mul_numer_le : (w.advance ⌊t⌋₊).k * w.numer t ≤ 1030000000 * (t - ⌊t⌋₊) := by
  have hk : (0 : Rat) ≤ (w.advance ⌊t⌋₊).k := Nat.cast_nonneg _
  have hnumer : w.numer t ≤ X * w.denom t * (1 + 1 / 10000000000000) := by
    linarith [(abs_le.mp (hr.drift_le hX)).2]
  have hscaled := mul_le_mul_of_nonneg_left hnumer hk
  have hbound := hr.k_mul_denom_le hX hfar
  linarith [hr.fract_nonneg]

/-- What a convergent leaves to expand is not too small to have a moderate reciprocal. -/
theorem fract_ge : 97 / 100000000000 ≤ t - ⌊t⌋₊ := by
  have hk := hr.one_le_k_advance
  have hnumer := numer_eq w t
  rcases hr.h_cases with hone | ⟨hzero, hone⟩
  · have hN : 1 ≤ w.numer t := le_trans hone hr.h_advance_le
    have hproduct : (1 : Rat) * 1 ≤ (w.advance ⌊t⌋₊).k * w.numer t :=
      mul_le_mul hk hN zero_le_one (by linarith)
    linarith [hr.k_mul_numer_le hX hfar]
  · rw [hzero, hone, Nat.cast_zero, Nat.cast_one, mul_one, zero_add] at hnumer
    have hdrift := (abs_le.mp (hr.drift_le hX)).1
    linarith [hr.le_mul_denom hX]

theorem product_advance_le {t' : Rat} (hhigh : (t - ⌊t⌋₊) * t' ≤ 1 + 1 / 4503599627370496) :
    (w.advance ⌊t⌋₊).k * (w.advance ⌊t⌋₊).numer t' ≤ 1040000000 := by
  set w' := w.advance ⌊t⌋₊
  set f := t - ⌊t⌋₊
  have hf : 97 / 100000000000 ≤ f := hr.fract_ge hX hfar
  have hh : (0 : Rat) ≤ w'.h := Nat.cast_nonneg _
  have hk : (0 : Rat) ≤ w'.k := Nat.cast_nonneg _
  have hscaled : f * w'.numer t' ≤ (1 + 1 / 4503599627370496) * w.numer t := by
    have hpart := mul_le_mul_of_nonneg_left hhigh hh
    have hrest : (0 : Rat) ≤ f * w.h := mul_nonneg (by linarith) (Nat.cast_nonneg _)
    calc f * w'.numer t' = w'.h * (f * t') + f * w.h := by
          rw [Continuants.numer]
          simp only [w', Continuants.advance]
          ring
      _ ≤ (1 + 1 / 4503599627370496) * w.numer t := by
          rw [numer_eq]
          linarith
  have hbound := hr.k_mul_numer_le hX hfar
  have hmul := mul_le_mul_of_nonneg_left hscaled hk
  refine le_of_mul_le_mul_left ?_ (by linarith : 0 < f)
  linarith

/-- A term in front of which no convergent was near keeps the state ready for the next one. -/
theorem advance {t' : Rat} (ht' : 1 ≤ t') (hlow : 1 - 1 / 4503599627370496 ≤ (t - ⌊t⌋₊) * t')
    (hhigh : (t - ⌊t⌋₊) * t' ≤ 1 + 1 / 4503599627370496) :
    Ready X (n + 1) (w.advance ⌊t⌋₊) t' := by
  have hdrift := hr.drift_advance hX ht' hlow hhigh
  have hproduct := hr.product_advance_le hX hfar hhigh
  have hk := hr.one_le_k_advance
  have hnumer₀ : 0 ≤ (w.advance ⌊t⌋₊).numer t' :=
    add_nonneg (mul_nonneg (Nat.cast_nonneg _) (by linarith)) (Nat.cast_nonneg _)
  have hnumer : (w.advance ⌊t⌋₊).numer t' ≤ 1040000000 := by
    have hmul := mul_le_mul_of_nonneg_right hk hnumer₀
    linarith
  exact {
    unimodular := hr.unimodular.advance ⌊t⌋₊
    grown := hr.grown_advance
    nonneg := by linarith
    first := .inl ht'
    drift := hdrift
    numer_le := by linarith
    denom_le := hr.denom_advance_le hX hdrift hproduct (by linarith)
    product_le := hproduct }

end Ready

end Quadra.Fraction
