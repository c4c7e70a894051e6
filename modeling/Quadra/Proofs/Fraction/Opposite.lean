import Quadra.Proofs.Binary64.Symmetry
import Quadra.Proofs.Fraction.Accuracy
import Quadra.Proofs.Fraction.Faithful

set_option autoImplicit false

/-!
# Opposite fractions

Opposite numbers have opposite fractions, and where one of them has a fault so has the other. Rounding
half up is not symmetric about zero and sends some integers above `2 ^ 52` elsewhere. Neither matters: a
number within the tolerance of an integer is not halfway between two of them, and a number above `2 ^ 52`
becomes the integer that it is whichever way it takes.
-/

namespace Quadra.Fraction

open Binary64 Numeric

/-- What becomes of the opposite of `x` is the mirror image of what becomes of `x`: the fault of the same
kind, or the fraction with the opposite numerator. -/
inductive Mirrored (x : Binary64) : Except Fault Fraction → Except Fault Fraction → Prop
  | notFinite : Mirrored x (.error (.notFinite x)) (.error (.notFinite (-x)))
  | outOfRange : Mirrored x (.error (.outOfRange x)) (.error (.outOfRange (-x)))
  | ok {f f' : Fraction} (numer : f'.numer.toInt = -f.numer.toInt) (denom : f'.denom = f.denom) :
      Mirrored x (.ok f) (.ok f')

/-! ## Integers -/

/-- Opposite integers have opposite words. -/
theorem mirrored_integers (x : Binary64) (n : Int) :
    Mirrored x (if 9223372036854775808 ≤ |n| then .error (.outOfRange x) else .ok ⟨.ofInt n, 1⟩)
      (if 9223372036854775808 ≤ |-n| then .error (.outOfRange (-x)) else .ok ⟨.ofInt (-n), 1⟩) := by
  rw [abs_neg]
  split
  · exact .outOfRange
  · rename_i hfits
    have hn : |n| < 9223372036854775808 := not_le.mp hfits
    refine .ok ?_ rfl
    rw [toInt_ofInt_of_abs_lt hn, toInt_ofInt_of_abs_lt (by rwa [abs_neg])]

section

variable {x : Binary64} (hx : x.isFinite = true)

include hx

theorem opposite_isFinite : (-x).isFinite = true := (isFinite_opposite x).trans hx

theorem mirrored_of_large (hlarge : 4503599627370496 ≤ |x.value|) :
    Mirrored x (ofNumber x) (ofNumber (-x)) := by
  obtain ⟨n, hn⟩ := exists_eq_intCast_of_large hx hlarge
  rw [ofNumber, maxTerms, approximate_of_large hx hlarge hn 24, ofNumber, maxTerms,
    approximate_of_large (opposite_isFinite hx) (n := -n)
      (by rwa [value_opposite, abs_neg]) (by rw [value_opposite, hn, Int.cast_neg]) 24]
  exact mirrored_integers x n

/-- A number near an integer has an opposite near the opposite integer. -/
theorem near_opposite (hsmall : |x.value| < 4503599627370496) (h : abs (x - round x) < epsilon) {n : Int}
    (hn : (round x).value = n) : abs (-x - round (-x)) < epsilon ∧ (round (-x)).value = (-n : Int) := by
  have hopposite := opposite_isFinite hx
  obtain ⟨hround, m, hm, hnear⟩ := exists_integer_of_near hx h
  obtain rfl : n = m := by exact_mod_cast hn.symm.trans hm
  have hnear' : |(-x).value - (-n : Int)| < 1 / 1000000000 := by
    rw [value_opposite, Int.cast_neg, ← abs_neg]
    convert hnear using 2
    ring
  obtain ⟨hround', hn'⟩ := round_of_near hopposite (by rwa [value_opposite, abs_neg]) hnear'
  refine ⟨?_, hn'⟩
  -- the exact differences are opposite, and so are the numbers they are rounded to
  have hexact : (-x).value - (round (-x)).value = -(x.value - (round x).value) := by
    rw [value_opposite, hn', hn, Int.cast_neg]
    ring
  have hrange : |x.value - (round x).value| < overflowBound := by
    rw [hn]
    exact lt_overflowBound_of_moderate (by linarith)
  have hdifference := rounds_sub hx hround hrange
  have hdifference' := rounds_sub hopposite hround' (by rwa [hexact, abs_neg])
  have hvalue : (-x - round (-x)).value = -(x - round x).value := by
    rw [hdifference'.value_eq, hexact, value_nearest_neg, hdifference.value_eq]
  rw [lt_iff_value_lt (isFinite_abs hdifference.isFinite) isFinite_epsilon,
    value_abs hdifference.isFinite] at h
  rwa [lt_iff_value_lt (isFinite_abs hdifference'.isFinite) isFinite_epsilon,
    value_abs hdifference'.isFinite, hvalue, abs_neg]

/-- The test for an integer is symmetric about zero. -/
theorem near_opposite_iff (hsmall : |x.value| < 4503599627370496) :
    abs (-x - round (-x)) < epsilon ↔ abs (x - round x) < epsilon := by
  constructor
  · intro h
    have hopposite := opposite_isFinite hx
    obtain ⟨-, n, hn, -⟩ := exists_integer_of_near hopposite h
    have hnear := (near_opposite hopposite (by rwa [value_opposite, abs_neg]) h hn).1
    rwa [opposite_opposite] at hnear
  · intro h
    obtain ⟨-, n, hn, -⟩ := exists_integer_of_near hx h
    exact (near_opposite hx hsmall h hn).1

theorem mirrored_of_near (hsmall : |x.value| < 4503599627370496) (h : abs (x - round x) < epsilon) :
    Mirrored x (ofNumber x) (ofNumber (-x)) := by
  obtain ⟨-, n, hn, -⟩ := exists_integer_of_near hx h
  obtain ⟨h', hn'⟩ := near_opposite hx hsmall h hn
  rw [ofNumber, approximate_of_near hx h hn, ofNumber,
    approximate_of_near (opposite_isFinite hx) h' hn']
  exact mirrored_integers x n

/-! ## Convergents -/

theorem signed_opposite (hne : x.value ≠ 0) (n : Nat) : signed (-x) n = -signed x n := by
  have hlt := lt_zero_iff hx
  have hlt' := lt_zero_iff (opposite_isFinite hx)
  rw [value_opposite, neg_lt_zero] at hlt'
  simp only [signed, hlt, hlt']
  rcases lt_or_gt_of_ne hne with hneg | hpos
  · rw [if_neg hneg.not_gt, if_pos hneg, Int.neg_neg]
  · rw [if_pos hpos, if_neg hpos.not_gt]

/-- Away from zero the two magnitudes are the same number, not only alike. -/
theorem abs_opposite (hne : x.value ≠ 0) : abs (-x) = abs x := by
  apply (alike_abs_opposite x).eq_of_not_isZero
  rw [← Bool.not_eq_true, isZero_iff (isFinite_abs hx), value_abs hx, abs_eq_zero]
  exact hne

/-- The fractions of opposite numbers at the same convergent are opposite. -/
theorem mirrored_of_faithful (hne : x.value ≠ 0) {c : Convergents} {r r' : Except Fault Fraction}
    (h : Faithful x c r) (h' : Faithful (-x) c r') : Mirrored x r r' := by
  cases h with
  | outOfRange hlimit =>
      cases h' with
      | outOfRange => exact .outOfRange
      | ok _ reads' => exact absurd hlimit reads'.not_limit_le
  | @ok n d f reads irreducible value =>
      cases h' with
      | outOfRange hlimit => exact absurd hlimit reads.not_limit_le
      | @ok n' d' f' reads' irreducible' value' =>
          obtain ⟨rfl, rfl⟩ := reads.unique reads'
          rw [signed_opposite hx hne] at value'
          -- both are reduced from the same parts, up to the sign of the numerator
          have hpos : (d : Int) ≠ 0 := by exact_mod_cast (Nat.pos_iff_ne_zero.mp reads.one_le_denom)
          have hcross : f'.numer.toInt * f.denom.toNat = -f.numer.toInt * f'.denom.toNat := by
            apply Int.eq_of_mul_eq_mul_right hpos
            linear_combination f.denom.toNat * value' + f'.denom.toNat * value
          obtain ⟨hnumer, hdenom⟩ := parts_eq_of_cross irreducible'.denom_pos irreducible.denom_pos
            irreducible'.coprime (by rw [Int.natAbs_neg]; exact irreducible.coprime) hcross
          exact .ok hnumer (UInt64.toNat_inj.mp hdenom)

/-- Opposite numbers have the same expansion. -/
theorem mirrored_of_far (h : ¬ abs (x - round x) < epsilon)
    (h' : ¬ abs (-x - round (-x)) < epsilon) : Mirrored x (ofNumber x) (ofNumber (-x)) := by
  have hlow := le_abs_value_of_far hx h
  have hne : x.value ≠ 0 := abs_pos.mp (by linarith)
  have hlarge : 1 / 2 ^ (1024 : Int) < (abs x).value := tiny_lt_of_le (by rw [value_abs hx]; linarith)
  have hparts : WholeParts (expand (abs x) epsilon maxTerms (.start (abs x))) :=
    wholeParts_expand (isFinite_abs hx) (by rw [value_abs hx]; exact abs_nonneg _) (.inr hlarge) (by decide)
  refine mirrored_of_faithful hx hne (faithful_of_wholeParts hx h rfl hparts) ?_
  exact faithful_of_wholeParts (opposite_isFinite hx) h' (by rw [abs_opposite hx hne]) hparts

end

/-- **Fractions are odd.** Opposite numbers have opposite fractions over the same denominator, or faults
of the same kind. -/
theorem ofNumber_opposite (x : Binary64) : Mirrored x (ofNumber x) (ofNumber (-x)) := by
  cases hx : x.isFinite with
  | false =>
      rw [ofNumber, approximate_of_not_isFinite hx, ofNumber,
        approximate_of_not_isFinite ((isFinite_opposite x).trans hx)]
      exact .notFinite
  | true =>
      rcases le_or_gt 4503599627370496 |x.value| with hlarge | hsmall
      · exact mirrored_of_large hx hlarge
      · by_cases h : abs (x - round x) < epsilon
        · exact mirrored_of_near hx hsmall h
        · exact mirrored_of_far hx h (mt (near_opposite_iff hx hsmall).mp h)

end Quadra.Fraction
