import Quadra.Proofs.Fraction.Accuracy

set_option autoImplicit false

/-!
# Recovery of fractions

The quotient of two small coprime integers, rounded to a number, has these integers as its fraction. The
convergents on both sides of a fraction have cross products with it of opposite signs, which sum up to its
denominator; so only the fraction itself is as close as the test demands.
-/

namespace Quadra.Fraction

open Binary64 Numeric

/-- An integer that a part of another one nearly cancels has the opposite sign of it, so their products
across do not cancel. -/
theorem le_abs_cross {a a' k k' : Int} {f : Rat} (hk : 0 ≤ k) (hk' : 0 ≤ k') (hf : 0 ≤ f)
    (hne : a' ≠ 0) (hsum : |(a' : Rat) + f * a| ≤ 1 / 10) : k' ≤ |a * k' - a' * k| := by
  rw [abs_le] at hsum
  rcases lt_or_gt_of_ne hne with hneg | hpos
  · have hone : (a' : Rat) ≤ -1 := by exact_mod_cast Int.le_sub_one_of_lt hneg
    have ha : 1 ≤ a := by
      by_contra hle
      have hnonpos : (a : Rat) ≤ 0 := by exact_mod_cast (by omega : a ≤ 0)
      linarith [mul_nonneg hf (neg_nonneg.mpr hnonpos)]
    have hfirst : 1 * k' ≤ a * k' := mul_le_mul_of_nonneg_right ha hk'
    have hsecond : a' * k ≤ 0 := mul_nonpos_of_nonpos_of_nonneg hneg.le hk
    exact le_trans (by linarith) (le_abs_self _)
  · have hone : (1 : Rat) ≤ a' := by exact_mod_cast hpos
    have ha : a ≤ -1 := by
      by_contra hge
      have hnonneg : (0 : Rat) ≤ a := by exact_mod_cast (by omega : 0 ≤ a)
      linarith [mul_nonneg hf hnonneg]
    have hfirst : a * k' ≤ -1 * k' := mul_le_mul_of_nonneg_right ha hk'
    have hsecond : 0 ≤ a' * k := mul_nonneg hpos.le hk
    exact le_trans (by linarith) (neg_le_abs _)

/-- A number as close to the fraction `p / q` as a rounding. -/
structure Rounded (X : Rat) (p q : Nat) : Prop where
  coprime : Nat.Coprime p q
  numer_le : p ≤ 200
  denom_pos : 1 ≤ q
  denom_le : q ≤ 1000000
  close : |p - X * q| ≤ p / 4503599627370496

namespace Rounded

variable {X : Rat} {p q : Nat} (hX : Rounded X p q)

include hX

theorem mul_denom_le : X * q ≤ 201 := by
  have hp : (p : Rat) ≤ 200 := by exact_mod_cast hX.numer_le
  linarith [(abs_le.mp hX.close).1]

/-- The cross product of a convergent with the fraction is small when the convergent is close to the
number. -/
theorem abs_cross_le {h k δ : Rat} (hk : 0 ≤ k) (hδ : 0 ≤ δ) (hclose : |h - X * k| ≤ δ * (X * k)) :
    |p * k - q * h| ≤ (1 / 10000000000000 + 201 * δ) * k := by
  have hp : (p : Rat) ≤ 200 := by exact_mod_cast hX.numer_le
  have hq : (0 : Rat) ≤ q := Nat.cast_nonneg q
  have hfraction : |p - X * q| * k ≤ 1 / 10000000000000 * k :=
    mul_le_mul_of_nonneg_right (by linarith [hX.close]) hk
  have hconvergent : q * |h - X * k| ≤ 201 * (δ * k) := by
    calc q * |h - X * k| ≤ q * (δ * (X * k)) := mul_le_mul_of_nonneg_left hclose hq
      _ = X * q * (δ * k) := by ring
      _ ≤ 201 * (δ * k) := mul_le_mul_of_nonneg_right hX.mul_denom_le (mul_nonneg hδ hk)
  calc |p * k - q * h| = |(p - X * q) * k - q * (h - X * k)| := by congr 1; ring
    _ ≤ |(p - X * q) * k| + |q * (h - X * k)| := abs_sub _ _
    _ = |p - X * q| * k + q * |h - X * k| := by
        rw [abs_mul, abs_mul, abs_of_nonneg hk, abs_of_nonneg hq]
    _ ≤ (1 / 10000000000000 + 201 * δ) * k := by linarith

/-! ## The last convergent -/

section

variable {n : Nat} {w : Continuants} {t : Rat} (hlow : 99 / 100000000000 ≤ X) (hr : Ready X n w t)

include hlow hr

/-- The cross products of the fraction with the two convergents nearly cancel out, when that of the older
one is weighted with what is left. -/
theorem abs_cross_add_le :
    |(p * (w.advance ⌊t⌋₊).k - q * (w.advance ⌊t⌋₊).h) + (t - ⌊t⌋₊) * (p * w.k - q * w.h)| ≤ 1 / 10 := by
  have hdrift := hr.drift_le hlow
  rw [div_eq_inv_mul] at hdrift
  have hcross := hX.abs_cross_le (by linarith [hr.one_le_denom]) (by norm_num) hdrift
  calc |(p * (w.advance ⌊t⌋₊).k - q * (w.advance ⌊t⌋₊).h) + (t - ⌊t⌋₊) * (p * w.k - q * w.h)|
      = |p * w.denom t - q * w.numer t| := by
        rw [numer_eq, denom_eq]
        congr 1
        ring
    _ ≤ (1 / 10000000000000 + 201 * 10000000000000⁻¹) * w.denom t := hcross
    _ ≤ (1 / 10000000000000 + 201 * 10000000000000⁻¹) * 1100000000 :=
        mul_le_mul_of_nonneg_left hr.denom_le (by norm_num)
    _ ≤ 1 / 10 := by norm_num

/-- A convergent that is not the fraction has a denominator of at most its denominator. -/
theorem k_advance_le_of_cross_ne
    (hne : (p * (w.advance ⌊t⌋₊).k - q * (w.advance ⌊t⌋₊).h : Int) ≠ 0) :
    (w.advance ⌊t⌋₊).k ≤ q := by
  have hsum := hX.abs_cross_add_le hlow hr
  have hunit := hr.unimodular.advance ⌊t⌋₊
  set w' := w.advance ⌊t⌋₊ with hw'
  obtain ⟨A, hA⟩ : ∃ A : Int, A = p * w.k - q * w.h := ⟨_, rfl⟩
  obtain ⟨A', hA'⟩ : ∃ A' : Int, A' = p * w'.k - q * w'.h := ⟨_, rfl⟩
  have hcast : (A : Rat) = p * w.k - q * w.h := by rw [hA]; push_cast; rfl
  have hcast' : (A' : Rat) = p * w'.k - q * w'.h := by rw [hA']; push_cast; rfl
  rw [← hcast, ← hcast'] at hsum
  rw [← hA'] at hne
  -- the cross product of the convergents shows in the products across
  have hcross : A * w'.k - A' * w.k = q * w'.cross := by
    rw [hA, hA', Continuants.cross, hw']
    simp only [Continuants.advance]
    ring
  have hk : (0 : Int) ≤ w.k := Int.natCast_nonneg _
  have hk' : (0 : Int) ≤ w'.k := Int.natCast_nonneg _
  have hle := le_abs_cross hk hk' hr.fract_nonneg hne hsum
  rw [hcross, abs_mul, hunit, mul_one, Nat.abs_cast] at hle
  exact_mod_cast hle

end

/-- The expansion ends at the fraction. -/
theorem eq_of_end {w : Continuants} {t : Rat} {c : Convergents} (hlow : 99 / 100000000000 ≤ X)
    (hend : End X w t c) : (w.advance ⌊t⌋₊).h = p ∧ (w.advance ⌊t⌋₊).k = q := by
  obtain ⟨n, hr⟩ := hend.ready
  have hcross : (p * (w.advance ⌊t⌋₊).k - q * (w.advance ⌊t⌋₊).h : Int) = 0 := by
    by_contra hne
    -- otherwise the denominator is too small for a convergent that is near
    have hk : ((w.advance ⌊t⌋₊).k : Rat) ≤ 1000000 := by
      exact_mod_cast le_trans (hX.k_advance_le_of_cross_ne hlow hr hne) hX.denom_le
    have hsmall := hX.abs_cross_le (Nat.cast_nonneg _) (by norm_num) hend.near
    have hone : 1 ≤ |(p : Rat) * (w.advance ⌊t⌋₊).k - q * (w.advance ⌊t⌋₊).h| := by
      exact_mod_cast Int.one_le_abs hne
    linarith
  have hproduct : p * (w.advance ⌊t⌋₊).k = q * (w.advance ⌊t⌋₊).h := by
    exact_mod_cast sub_eq_zero.mp hcross
  have hk : (w.advance ⌊t⌋₊).k = q := by
    refine Nat.dvd_antisymm ?_ ?_
    · exact (hr.unimodular.advance ⌊t⌋₊).coprime.symm.dvd_of_dvd_mul_right ⟨p, by linarith⟩
    · exact hX.coprime.symm.dvd_of_dvd_mul_left ⟨_, hproduct⟩
  refine ⟨?_, hk⟩
  rw [hk, Nat.mul_comm] at hproduct
  exact (Nat.eq_of_mul_eq_mul_left hX.denom_pos hproduct).symm

end Rounded

/-! ## Quotients -/

section

variable {p : Int} {q : Nat} (hcoprime : Nat.Coprime p.natAbs q) (hp : |p| ≤ 200) (hq : 1 ≤ q)
  (hq₁ : q ≤ 1000000)

include hp hq hq₁

/-- The quotient is rounded once. -/
theorem quotient_spec : (ofInt p / ofInt q).isFinite = true ∧
    |p - (ofInt p / ofInt q).value * q| ≤ |(p : Rat)| / 4503599627370496 := by
  have hp' : |(p : Rat)| ≤ 200 := by exact_mod_cast hp
  have hq' : (1 : Rat) ≤ q := by exact_mod_cast hq
  have hq₁' : (q : Rat) ≤ 1000000 := by exact_mod_cast hq₁
  obtain ⟨hnumer, hnumerValue⟩ := value_ofInt (n := p) (by omega)
  obtain ⟨hdenom, hdenomValue⟩ := value_ofInt (n := q) (by rw [Nat.abs_cast]; omega)
  rw [Int.cast_natCast] at hdenomValue
  have hsize : |(p : Rat) / q| ≤ 200 := by
    rw [abs_div, abs_of_nonneg (by linarith : (0 : Rat) ≤ q)]
    exact le_trans (div_le_self (abs_nonneg _) hq') hp'
  have hrounds := rounds_div hnumer hdenom (by rw [hdenomValue]; linarith) (by
    rw [hnumerValue, hdenomValue]
    exact lt_overflowBound_of_moderate (by linarith))
  rw [hnumerValue, hdenomValue] at hrounds
  refine ⟨hrounds.isFinite, ?_⟩
  rcases eq_or_ne p 0 with rfl | hne
  · rw [Int.cast_zero, zero_div] at hrounds
    rw [hrounds.value_eq_of_eq (y := zero false) rfl (value_zero _), Int.cast_zero, zero_mul, sub_zero,
      abs_zero, zero_div]
  · have hone : (1 : Rat) ≤ |(p : Rat)| := by exact_mod_cast Int.one_le_abs hne
    have hnormal : 1 / 1267650600228229401496703205376 ≤ |(p : Rat) / q| := by
      rw [abs_div, abs_of_nonneg (by linarith : (0 : Rat) ≤ q), le_div_iff₀ (by linarith)]
      linarith
    have hrelative := hrounds.relative (normal_of_moderate hnormal)
    rw [show (2 : Rat) ^ (52 : Int) = 4503599627370496 by norm_num] at hrelative
    have hscaled := mul_le_mul_of_nonneg_right hrelative (by linarith : (0 : Rat) ≤ q)
    calc |p - (ofInt p / ofInt q).value * q| = |(ofInt p / ofInt q).value - p / q| * q := by
          rw [abs_sub_comm _ ((p : Rat) / q), abs_div_sub_mul (by linarith)]
      _ ≤ |(p : Rat) / q| / 4503599627370496 * q := hscaled
      _ = |(p : Rat)| / 4503599627370496 := by
          rw [abs_div, abs_of_nonneg (by linarith : (0 : Rat) ≤ q)]
          field_simp

/-- The quotient has the sign of the numerator. -/
theorem signed_natAbs : signed (ofInt p / ofInt q) p.natAbs = p := by
  obtain ⟨hfinite, hclose⟩ := quotient_spec hp hq hq₁
  rw [abs_le] at hclose
  have hlt := lt_zero_iff hfinite
  have hq' : (0 : Rat) ≤ q := Nat.cast_nonneg q
  rw [signed]
  split
  · rename_i hneg
    have hle : p ≤ 0 := by
      by_contra hpos
      have hone : (1 : Rat) ≤ p := by exact_mod_cast not_le.mp hpos
      rw [abs_of_nonneg (by linarith)] at hclose
      linarith [mul_nonneg (neg_nonneg.mpr (hlt.mp hneg).le) hq']
    omega
  · rename_i hnonneg
    have hge : 0 ≤ p := by
      by_contra hneg
      have hone : (p : Rat) ≤ -1 := by exact_mod_cast Int.le_sub_one_of_lt (not_le.mp hneg)
      rw [abs_of_nonpos (by linarith)] at hclose
      linarith [mul_nonneg (not_lt.mp (mt hlt.mpr hnonneg)) hq']
    omega

include hcoprime

/-- A quotient near an integer is one. -/
theorem eq_one_of_near {n : Int} (hnear : |(ofInt p / ofInt q).value - n| < 1 / 1000000000) :
    q = 1 ∧ p = n := by
  obtain ⟨-, hclose⟩ := quotient_spec hp hq hq₁
  have hp' : |(p : Rat)| ≤ 200 := by exact_mod_cast hp
  have hq₁' : (q : Rat) ≤ 1000000 := by exact_mod_cast hq₁
  have hscaled : |(ofInt p / ofInt q).value - n| * q ≤ 1 / 1000000000 * q :=
    mul_le_mul_of_nonneg_right hnear.le (Nat.cast_nonneg q)
  have hdistance : |((p - n * q : Int) : Rat)| < 1 := by
    calc |((p - n * q : Int) : Rat)|
        = |(p - (ofInt p / ofInt q).value * q) + ((ofInt p / ofInt q).value - n) * q| := by
          congr 1
          push_cast
          ring
      _ ≤ |p - (ofInt p / ofInt q).value * q| + |((ofInt p / ofInt q).value - n) * q| := abs_add_le _ _
      _ = |p - (ofInt p / ofInt q).value * q| + |(ofInt p / ofInt q).value - n| * q := by
          rw [abs_mul, Nat.abs_cast]
      _ < 1 := by linarith
  have hproduct : p = n * q := by
    have hzero : p - n * q = 0 := Int.abs_lt_one_iff.mp (by exact_mod_cast hdistance)
    omega
  have hdvd : q ∣ p.natAbs := Int.natCast_dvd.mp ⟨n, by rw [hproduct, mul_comm]⟩
  have hone : q = 1 := hcoprime.symm.eq_one_of_dvd hdvd
  refine ⟨hone, ?_⟩
  rw [hproduct, hone, Nat.cast_one, mul_one]

/-- **Fractions are recovered.** The number nearest to a fraction in lowest terms has this fraction, for
numerators up to 200 in magnitude and denominators up to a million. -/
theorem ofNumber_quotient : ofNumber (ofInt p / ofInt q) = .ok ⟨.ofInt p, .ofNat q⟩ := by
  obtain ⟨hfinite, hclose⟩ := quotient_spec hp hq hq₁
  have hsigned := signed_natAbs hp hq hq₁
  have hvalue := value_abs hfinite
  have hmost : p.natAbs ≤ 200 := by
    rw [Int.abs_eq_natAbs] at hp
    exact_mod_cast hp
  by_cases h : abs (ofInt p / ofInt q - round (ofInt p / ofInt q)) < epsilon
  · obtain ⟨-, n, hn, hnear⟩ := exists_integer_of_near hfinite h
    obtain ⟨hone, rfl⟩ := eq_one_of_near hcoprime hp hq hq₁ hnear
    rw [ofNumber, approximate_of_near hfinite h hn, if_neg (by omega), hone]
    rfl
  · have hlow := le_abs_value_of_far hfinite h
    have hrounded : Rounded |(ofInt p / ofInt q).value| p.natAbs q := by
      refine ⟨hcoprime, hmost, hq, hq₁, ?_⟩
      have hmagnitude := abs_abs_sub_abs_le (p : Rat) ((ofInt p / ofInt q).value * q)
      rw [abs_mul, Nat.abs_cast] at hmagnitude
      rw [Nat.cast_natAbs, Int.cast_abs]
      exact le_trans hmagnitude hclose
    have hsize : |(ofInt p / ofInt q).value| ≤ 201 := by
      have hone : (1 : Rat) ≤ q := by exact_mod_cast hq
      exact le_trans (le_mul_of_one_le_right (abs_nonneg _) hone) hrounded.mul_denom_le
    have hexpandable : Expandable (abs (ofInt p / ofInt q)) :=
      ⟨isFinite_abs hfinite, by rwa [hvalue], by rw [hvalue]; linarith⟩
    obtain ⟨w, t, c, hend, hexpand⟩ := hexpandable.exists_expand_eq
    rw [hvalue] at hend
    obtain ⟨hh, hk⟩ := hrounded.eq_of_end hlow hend
    have hnumer := hend.represents.h
    have hdenom := hend.represents.k
    rw [hh] at hnumer
    rw [hk] at hdenom
    rw [ofNumber, approximate_of_far hfinite h (hexpand maxTerms (by decide)) hnumer hdenom hq (by omega)
      hcoprime, if_neg (by omega), hsigned]

end

/-- The number nearest to `-7 / 22` has the fraction `-7/22`. -/
theorem ofNumber_quotient_negative :
    Nat.Coprime (-7 : Int).natAbs 22 ∧ |(-7 : Int)| ≤ 200 ∧ 1 ≤ 22 ∧ 22 ≤ 1000000 ∧
      ofNumber (ofInt (-7) / ofInt (22 : Nat)) = .ok ⟨.ofInt (-7), .ofNat 22⟩ :=
  ⟨by decide, by decide, by decide, by decide,
    ofNumber_quotient (p := -7) (q := 22) (by decide) (by decide) (by decide) (by decide)⟩

end Quadra.Fraction
