import Quadra.Proofs.Fraction.Drift

set_option autoImplicit false

/-!
# Ends of expansions

The test that ends an expansion is rounded three times, but a convergent that passes it is within
`1.001 * 10 ^ (-9)` of the number, relatively, and one that fails it is not within `0.99 * 10 ^ (-9)`.
So an expansion passes through states that are `Ready` until a convergent is near, which happens within
24 terms: a larger number of terms changes nothing.
-/

namespace Quadra.Fraction

open Binary64 Numeric

/-- The convergent of the next term of a ready state is exact. -/
theorem Ready.represents_advance {X t : Rat} {n : Nat} {w : Continuants} {c : Convergents}
    (hr : Ready X n w t) (hc : c.Represents w t) :
    c.advance.Represents (w.advance ⌊t⌋₊) (t - ⌊t⌋₊) :=
  hc.advance hr.nonneg (le_trans hr.h_advance_small (by norm_num))
    (le_trans hr.k_advance_small (by norm_num))

/-- The convergents at which an expansion of `X` ends: those of the state `w` and `t` with one more
term, the first that is near. -/
structure End (X : Rat) (w : Continuants) (t : Rat) (c : Convergents) : Prop where
  ready : ∃ n, Ready X n w t
  represents : c.Represents (w.advance ⌊t⌋₊) (t - ⌊t⌋₊)
  near : |(w.advance ⌊t⌋₊).h - X * (w.advance ⌊t⌋₊).k| ≤
    1001 / 1000000000000 * (X * (w.advance ⌊t⌋₊).k)

/-- A number that is neither too small nor too large for its expansion to be exact. -/
structure Expandable (x : Binary64) : Prop where
  isFinite : x.isFinite = true
  low : 99 / 100000000000 ≤ x.value
  high : x.value ≤ 4503599627370496

/-- The convergent is within the tolerance of `x`. -/
def Stops (x : Binary64) (c : Convergents) : Prop := abs (x - c.h / c.k) ≤ x * epsilon

instance (x : Binary64) (c : Convergents) : Decidable (Stops x c) := inferInstanceAs (Decidable (_ ≤ _))

/-- The three roundings of the test, for a convergent that is `r`. -/
structure Tested (x : Binary64) (c : Convergents) (r : Rat) : Prop where
  quotient : Rounds (c.h / c.k) r
  difference : Rounds (x - c.h / c.k) (x.value - (c.h / c.k).value)
  tolerance : Rounds (x * epsilon) (x.value * epsilon.value)

theorem Tested.stops_iff {x : Binary64} {c : Convergents} {r : Rat} (h : Tested x c r) :
    Stops x c ↔ |(x - c.h / c.k).value| ≤ (x * epsilon).value := by
  rw [Stops, le_iff_value_le (isFinite_abs h.difference.isFinite) h.tolerance.isFinite,
    value_abs h.difference.isFinite]

/-- The reciprocal of a moderate fraction is at least one, and the product of the two is one up to the
error of one rounding. -/
theorem reciprocal_bounds {y : Binary64} (hy : y.isFinite = true) (hyLow : 97 / 100000000000 ≤ y.value)
    (hyHigh : y.value < 1) :
    (1 / y).isFinite = true ∧ 1 ≤ (1 / y).value ∧
      1 - 1 / 4503599627370496 ≤ y.value * (1 / y).value ∧
      y.value * (1 / y).value ≤ 1 + 1 / 4503599627370496 := by
  have hpos : 0 < y.value := by linarith
  have hone : 1 ≤ 1 / y.value := one_le_one_div hpos hyHigh.le
  have hmoderate : 1 / y.value ≤ 9007199254740992 := by
    rw [div_le_iff₀ hpos]
    linarith
  have hrounds := rounds_div isFinite_ofNat_one hy hpos.ne' (by
    rw [value_one, abs_of_nonneg (by linarith)]
    exact lt_overflowBound_of_moderate hmoderate)
  rw [value_one] at hrounds
  obtain ⟨hlow, hhigh⟩ := hrounds.bounds (normal_of_moderate (by linarith))
  have hcancel : y.value * (1 / y.value) = 1 := mul_one_div_cancel hpos.ne'
  have hlow' := mul_le_mul_of_nonneg_left hlow hpos.le
  have hhigh' := mul_le_mul_of_nonneg_left hhigh hpos.le
  rw [← mul_assoc, hcancel, one_mul] at hlow' hhigh'
  refine ⟨hrounds.isFinite, ?_, hlow', hhigh'⟩
  have hge := hrounds.ge_of_ge isFinite_ofNat_one (by rwa [value_one])
  rwa [value_one] at hge

theorem abs_div_sub_mul {p q X : Rat} (hq : 0 < q) : |p / q - X| * q = |p - X * q| := by
  rw [← abs_of_nonneg hq.le, ← abs_mul, abs_of_nonneg hq.le, sub_mul, div_mul_cancel₀ _ hq.ne']

namespace Expandable

variable {x : Binary64} (hx : Expandable x)

include hx

/-! ## The test -/

section

variable {c : Convergents} {w : Continuants} {t : Rat} (hc : c.Represents w t)
  (hk : (1 : Rat) ≤ w.k) (hh : (w.h : Rat) ≤ 4503599627370496)

include hc hk hh

theorem tested : Tested x c (w.h / w.k) := by
  have hlow := hx.low
  have hhigh := hx.high
  have hh₀ : (0 : Rat) ≤ w.h := Nat.cast_nonneg _
  have hquotient : (w.h : Rat) / w.k ≤ w.h := div_le_self hh₀ hk
  have hr : 0 ≤ (w.h : Rat) / w.k := div_nonneg hh₀ (by linarith)
  have hdivided := rounds_div hc.h.1 hc.k.1 (by rw [hc.k.2]; linarith) (by
    rw [hc.h.2, hc.k.2, abs_of_nonneg hr]
    exact lt_overflowBound_of_moderate (by linarith))
  rw [hc.h.2, hc.k.2] at hdivided
  have hq₀ := hdivided.nonneg hr
  have hq₁ : (c.h / c.k).value ≤ w.h := hc.h.2 ▸ hdivided.le_of_le hc.h.1 (hc.h.2 ▸ hquotient)
  obtain ⟨hε₀, hε₁⟩ := epsilon_bounds
  have hproduct : x.value * epsilon.value ≤ x.value * 1 := mul_le_mul_of_nonneg_left hε₁.le (by linarith)
  refine ⟨hdivided, rounds_sub hx.isFinite hdivided.isFinite ?_, rounds_mul hx.isFinite isFinite_epsilon ?_⟩
  · refine lt_overflowBound_of_moderate (abs_le.mpr ⟨?_, ?_⟩)
    · linarith
    · linarith
  · rw [abs_of_nonneg (mul_nonneg (by linarith) hε₀.le)]
    exact lt_overflowBound_of_moderate (by linarith)

/-- The tolerance of the test, as bounds. -/
theorem tolerance_bounds : 9999 / 10000000000000 * x.value ≤ (x * epsilon).value ∧
    (x * epsilon).value ≤ 10001 / 10000000000000 * x.value := by
  obtain ⟨hε₀, hε₁⟩ := epsilon_close
  have hlow := hx.low
  have hlow' := mul_le_mul_of_nonneg_left hε₀ (by linarith : 0 ≤ x.value)
  have hhigh' := mul_le_mul_of_nonneg_left hε₁ (by linarith : 0 ≤ x.value)
  have herror := (hx.tested hc hk hh).tolerance.error_le
  rw [abs_of_nonneg (by linarith : 0 ≤ x.value * epsilon.value), abs_le] at herror
  constructor <;> linarith

/-- The difference that is tested is that of the convergent and the number, up to the roundings. -/
theorem abs_difference_sub_le : |(|(x - c.h / c.k).value|) - (|(w.h : Rat) / w.k - x.value|)| ≤
    (x.value + |(w.h : Rat) / w.k - x.value|) / 1000000000000000 := by
  have hlow := hx.low
  have htested := hx.tested hc hk hh
  have hquotient := htested.quotient.error_le
  have hdifference := htested.difference.error_le
  set r : Rat := w.h / w.k
  set q := (c.h / c.k).value
  set d := (x - c.h / c.k).value
  have hr : |r| ≤ x.value + |r - x.value| := by
    rw [abs_of_nonneg (div_nonneg (Nat.cast_nonneg _) (by linarith))]
    linarith [le_abs_self (r - x.value)]
  have hsplit : |x.value - q| ≤ |r - x.value| + |q - r| := by
    rw [abs_sub_comm r x.value, abs_sub_comm q r]
    exact abs_sub_le x.value r q
  calc |(|d|) - (|r - x.value|)| ≤ |d - (x.value - r)| := by
        rw [abs_sub_comm r x.value]
        exact abs_abs_sub_abs_le d (x.value - r)
    _ = |(d - (x.value - q)) + (r - q)| := by congr 1; ring
    _ ≤ |d - (x.value - q)| + |r - q| := abs_add_le _ _
    _ ≤ (x.value + |r - x.value|) / 1000000000000000 := by
        rw [abs_sub_comm r q]
        linarith [abs_nonneg (r - x.value)]

/-- A convergent that passes is near. -/
theorem near_of_stops (h : Stops x c) :
    |w.h - x.value * w.k| ≤ 1001 / 1000000000000 * (x.value * w.k) := by
  rw [(hx.tested hc hk hh).stops_iff] at h
  have hlow := hx.low
  have hdistance := abs_le.mp (hx.abs_difference_sub_le hc hk hh)
  have htolerance := (hx.tolerance_bounds hc hk hh).2
  have hscaled : |(w.h : Rat) / w.k - x.value| * w.k ≤ 1001 / 1000000000000 * x.value * w.k :=
    mul_le_mul_of_nonneg_right (by linarith) (by linarith)
  rw [abs_div_sub_mul (by linarith)] at hscaled
  linarith

/-- A convergent that fails is not. -/
theorem far_of_not_stops (h : ¬ Stops x c) :
    99 / 100000000000 * (x.value * w.k) ≤ |w.h - x.value * w.k| := by
  rw [(hx.tested hc hk hh).stops_iff, not_le] at h
  have hlow := hx.low
  have hdistance := abs_le.mp (hx.abs_difference_sub_le hc hk hh)
  have htolerance := (hx.tolerance_bounds hc hk hh).1
  have hscaled : 99 / 100000000000 * x.value * w.k ≤ |(w.h : Rat) / w.k - x.value| * w.k :=
    mul_le_mul_of_nonneg_right (by linarith) (by linarith)
  rw [abs_div_sub_mul (by linarith)] at hscaled
  linarith

end

/-! ## Terms -/

section

variable {n : Nat} {c : Convergents} {w : Continuants} {t : Rat} (hc : c.Represents w t)
  (hr : Ready x.value n w t)

include hc hr

/-- A convergent that fails the test leaves something to expand, and the state is ready again. -/
theorem ready_advance (h : ¬ Stops x c.advance) : c.advance.rest.isZero = false ∧
    ∃ t', Convergents.Represents { c.advance with rest := 1 / c.advance.rest } (w.advance ⌊t⌋₊) t' ∧
      Ready x.value (n + 1) (w.advance ⌊t⌋₊) t' := by
  have hadvance := hr.represents_advance hc
  have hfar := hx.far_of_not_stops hadvance hr.one_le_k_advance
    (le_trans hr.h_advance_le hr.numer_le) h
  have hfract := hr.fract_ge hx.low hfar
  obtain ⟨hrest, hvalue⟩ := hadvance.rest
  obtain ⟨hfinite, hone, hbelow, habove⟩ := reciprocal_bounds hrest (by rwa [hvalue])
    (by rw [hvalue]; exact fract_lt_one t)
  rw [hvalue] at hbelow habove
  refine ⟨?_, (1 / c.advance.rest).value, ?_, hr.advance hx.low hfar hone hbelow habove⟩
  · rw [← Bool.not_eq_true, isZero_iff hrest, hvalue]
    linarith
  · exact ⟨hadvance.h, hadvance.h₀, hadvance.k, hadvance.k₀, hfinite, rfl⟩

end

/-- From a ready state an expansion ends at a near convergent, and terms beyond the 24th are never used. -/
theorem exists_end (terms n : Nat) (c : Convergents) (w : Continuants) (t : Rat) (hc : c.Represents w t)
    (hr : Ready x.value n w t) (hterms : 24 ≤ n + terms) :
    ∃ w' t' c', End x.value w' t' c' ∧ ∀ more, expand x epsilon (terms + more) c = c' := by
  induction terms generalizing n c w t with
  | zero => exact absurd hr.length_le (by omega)
  | succ terms ih =>
      by_cases hstop : Stops x c.advance
      · have hadvance := hr.represents_advance hc
        have hnear := hx.near_of_stops hadvance hr.one_le_k_advance
          (le_trans hr.h_advance_le hr.numer_le) hstop
        refine ⟨w, t, c.advance, ⟨⟨n, hr⟩, hadvance, hnear⟩, ?_⟩
        intro more
        rw [Nat.succ_add, expand]
        exact if_pos hstop
      · obtain ⟨hrest, t', hc', hr'⟩ := hx.ready_advance hc hr hstop
        obtain ⟨w', t'', c', hend, hexpand⟩ := ih (n + 1) _ _ _ hc' hr' (by omega)
        refine ⟨w', t'', c', hend, ?_⟩
        intro more
        rw [← hexpand more, Nat.succ_add, expand]
        simp only [hrest]
        exact if_neg hstop

/-- The expansion of a number ends at a near convergent, after any number of terms from 24 on. -/
theorem exists_expand_eq :
    ∃ w t c, End x.value w t c ∧ ∀ terms, 24 ≤ terms → expand x epsilon terms (.start x) = c := by
  have hready : Ready x.value 0 .start x.value := by
    apply ready_start
    · linarith [hx.low]
    · exact hx.high
  obtain ⟨w, t, c, hend, hexpand⟩ :=
    hx.exists_end 24 0 _ _ _ (Convergents.represents_start hx.isFinite) hready le_rfl
  refine ⟨w, t, c, hend, ?_⟩
  intro terms hterms
  obtain ⟨more, rfl⟩ := Nat.exists_eq_add_of_le hterms
  exact hexpand more

end Expandable

end Quadra.Fraction
