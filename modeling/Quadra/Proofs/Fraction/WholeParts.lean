import Quadra.Binary64.Bits
import Quadra.Proofs.Fraction.Conversion
import Quadra.Proofs.Fraction.Steps

set_option autoImplicit false

/-!
# Whole parts

The parts of a convergent are integers, however many terms are expanded and whatever the tolerance is:
a part that grows too large is infinite from then on. So a fraction is made of the integers that the
parts are, or there is a fault. The only numbers that escape this are those of at most `2 ^ (-1024)`:
their reciprocal is infinite, and from the third term on both parts are `nan`.
-/

namespace Quadra.Fraction

open Binary64 Numeric

/-! ## All terms -/

/-- The parts of the convergents are whole, and the newer denominator is not zero. -/
structure WholeParts (c : Convergents) : Prop where
  h : Whole 0 c.h
  h₀ : Whole 0 c.h₀
  k : Whole 1 c.k
  k₀ : Whole 0 c.k₀

/-- Parts that keep track of continuants are whole. -/
theorem Follows.wholeParts {as : List Binary64} {ns : List Nat} {c : Convergents}
    (h : Follows as ns c) : WholeParts c where
  h := h.h.whole (Nat.zero_le _) (Nat.zero_le _)
  h₀ := h.h₀.whole (Nat.zero_le _) (Nat.zero_le _)
  k := h.k.whole h.ordered.one_le_k (by norm_num)
  k₀ := h.k₀.whole (Nat.zero_le _) (Nat.zero_le _)

/-- The parts of an expansion are whole, unless the number is positive and at most `2 ^ (-1024)`. -/
theorem wholeParts_expand {x tolerance : Binary64} {terms : Nat} (hx : x.isFinite = true)
    (hx₀ : 0 ≤ x.value) (hlarge : x.value = 0 ∨ 1 / 2 ^ (1024 : Int) < x.value) (hterms : 1 ≤ terms) :
    WholeParts (expand x tolerance terms (.start x)) := by
  obtain ⟨as, c, rest, hc, -, hexpand⟩ := exists_reaches x tolerance hterms
  obtain ⟨ns, hfollows, -⟩ := hc.follows_of_large hx hx₀ hlarge
  obtain ⟨hh, hh₀, hk, hk₀⟩ := hfollows.wholeParts
  rw [hexpand]
  exact ⟨hh, hh₀, hk, hk₀⟩

/-! ## Numbers that are too small

The reciprocal of a positive number of at most `2 ^ (-1024)` is infinite. The second term is infinite
then, so that it takes the zero of the first numerator to `nan`, and what it leaves is `nan`, too. -/

theorem not_nan_le (x : Binary64) : ¬ nan ≤ x := by
  show ¬ (less nan x || equals nan x) = true
  cases x <;> simp [less, equals]

/-- The test fails once the numerator is `nan`. -/
theorem not_passes_of_nan (x tolerance k : Binary64) : ¬ abs (x - nan / k) ≤ x * tolerance := by
  have hquotient : nan / k = nan := rfl
  have hdifference : x - nan = nan := add_nan x
  have hmagnitude : abs nan = nan := ite_self nan
  rw [hquotient, hdifference, hmagnitude]
  exact not_nan_le _

theorem one_div_nan : (1 : Binary64) / nan = nan := by
  rw [ofNat_one]
  rfl

theorem advance_of_nan {c : Convergents} (hc : c.rest = nan) :
    c.advance = ⟨nan, c.h, nan, c.k, nan⟩ := by
  rw [Convergents.advance, hc]
  rfl

/-- Where what is left is `nan`, the parts become `nan` with the next term. -/
theorem expand_of_nan {x tolerance : Binary64} (terms : Nat) {c : Convergents} (hc : c.rest = nan) :
    (expand x tolerance (terms + 1) c).h = nan ∧ (expand x tolerance (terms + 1) c).k = nan := by
  induction terms generalizing c with
  | zero =>
      rw [expand]
      simp only [advance_of_nan hc, if_neg (not_passes_of_nan x tolerance nan)]
      exact ⟨rfl, rfl⟩
  | succ terms ih =>
      rw [expand]
      simp only [advance_of_nan hc, if_neg (not_passes_of_nan x tolerance nan)]
      exact ih one_div_nan

/-- A number whose reciprocal is infinite. -/
structure Tiny (x : Binary64) : Prop where
  isFinite : x.isFinite = true
  pos : 0 < x.value
  le : x.value ≤ 1 / 2 ^ (1024 : Int)

namespace Tiny

variable {x tolerance : Binary64} (hx : Tiny x)

include hx

theorem lt_quarter : x.value < 1 / 4 := by
  refine lt_of_le_of_lt hx.le ?_
  rw [show (4 : Rat) = 2 ^ (2 : Int) by norm_num]
  exact one_div_lt_one_div_of_lt (two_zpow_pos 2) (zpow_lt_zpow_right₀ (by norm_num) (by norm_num))

theorem floor_eq : floor x = zero false := by
  have hpos := hx.pos
  have hlt := hx.lt_quarter
  have hcut : cut x.value = 0 := by
    rw [cut, if_neg hpos.not_gt, floor_eq_zero hpos.le (by linarith)]
  rw [floor_of_small hx.isFinite (by rw [abs_of_pos hpos]; linarith), hcut,
    if_neg fun h => absurd h.1 hpos.not_gt, ofInt, Int.cast_zero, nearest_zero]

/-- The first convergent is zero. -/
theorem start_advance : (Convergents.start x).advance = ⟨zero false, 1, 1, zero false, x⟩ := by
  have hh : zero false * 1 + 0 = zero false := by decide +kernel
  have hk : zero false * 0 + 1 = (1 : Binary64) := by decide +kernel
  have hrest : x - zero false = x := add_negative_zero hx.isFinite
  rw [Convergents.start, Convergents.advance]
  simp only [hx.floor_eq, hrest, hh, hk]
  rw [ofNat_zero]

/-- It does not pass the test: the tolerance is too small. -/
theorem not_passes (htolerance : tolerance.isFinite = true) (hnonneg : 0 ≤ tolerance.value)
    (hle : tolerance.value ≤ x.value) : ¬ abs (x - zero false / 1) ≤ x * tolerance := by
  have hpos := hx.pos
  have hquarter := hx.lt_quarter
  have hdifference : x - zero false / 1 = x := by
    rw [show zero false / 1 = zero false by decide +kernel]
    exact add_negative_zero hx.isFinite
  have hproduct : x.value * tolerance.value ≤ x.value / 4 := by
    calc x.value * tolerance.value ≤ x.value * (1 / 4) :=
          mul_le_mul_of_nonneg_left (by linarith) hpos.le
      _ = x.value / 4 := by ring
  have hrounds := rounds_mul hx.isFinite htolerance (by
    rw [abs_of_nonneg (mul_nonneg hpos.le hnonneg)]
    exact lt_overflowBound_of_moderate (by linarith))
  -- half of the least positive number is at most half of this one
  have hleast : 1 / 2 ^ (1075 : Int) ≤ x.value / 2 := by
    obtain ⟨n, hn⟩ := exists_eq_mul_least hx.isFinite hpos.le
    have hn₁ : 1 ≤ n := by
      rcases Nat.eq_zero_or_pos n with rfl | h
      · rw [Nat.cast_zero, zero_div] at hn
        exact absurd hn hpos.ne'
      · exact h
    rw [hn, div_div, show (1075 : Int) = 1074 + 1 by norm_num, two_zpow_add, zpow_one]
    exact div_le_div_of_nonneg_right (by exact_mod_cast hn₁) (mul_pos (two_zpow_pos 1074) two_pos).le
  have herror := hrounds.abs_sub_le
  rw [abs_of_nonneg (mul_nonneg hpos.le hnonneg),
    show (2 : Rat) ^ (53 : Int) = 9007199254740992 by norm_num, abs_le] at herror
  rw [hdifference, le_iff_value_le (isFinite_abs hx.isFinite) hrounds.isFinite, value_abs hx.isFinite,
    abs_of_pos hpos, not_le]
  linarith

/-- The numerator of the second is `nan`, and its denominator infinite. -/
theorem second_advance : Convergents.advance ⟨zero false, 1, 1, zero false, 1 / x⟩ =
    ⟨nan, zero false, infinite false, 1, nan⟩ := by
  have hterm : floor (infinite false) = infinite false := by decide +kernel
  have hh : infinite false * zero false + 1 = nan := by decide +kernel
  have hk : infinite false * 1 + zero false = infinite false := by decide +kernel
  have hrest : infinite false - infinite false = nan := rfl
  rw [reciprocal_of_le hx.isFinite hx.pos hx.le, Convergents.advance]
  simp only [hterm, hh, hk, hrest]

section

variable (htolerance : tolerance.isFinite = true) (hnonneg : 0 ≤ tolerance.value)
  (hle : tolerance.value ≤ x.value)

include htolerance hnonneg hle

/-- The expansion goes on behind the first convergent. -/
theorem expand_succ (more : Nat) : expand x tolerance (more + 1) (.start x) =
    expand x tolerance more ⟨zero false, 1, 1, zero false, 1 / x⟩ := by
  have hrest : x.isZero = false := by
    rw [← Bool.not_eq_true, isZero_iff hx.isFinite]
    exact hx.pos.ne'
  rw [expand]
  simp only [hx.start_advance, if_neg (hx.not_passes htolerance hnonneg hle), hrest]
  rfl

/-- One term leaves a zero. -/
theorem wholeParts_one : WholeParts (expand x tolerance 1 (.start x)) := by
  have hzero : Whole 0 (zero false) := ofNat_zero ▸ Whole.zero
  rw [hx.expand_succ htolerance hnonneg hle]
  exact ⟨hzero, Whole.one.mono (by norm_num), .one, hzero⟩

/-- Two terms leave an infinite denominator. -/
theorem expand_two : (expand x tolerance 2 (.start x)).k = infinite false := by
  rw [hx.expand_succ htolerance hnonneg hle, expand]
  simp only [hx.second_advance, if_neg (not_passes_of_nan x tolerance _)]
  rfl

/-- More terms leave nothing. -/
theorem expand_three (more : Nat) : (expand x tolerance (more + 3) (.start x)).h = nan ∧
    (expand x tolerance (more + 3) (.start x)).k = nan := by
  rw [hx.expand_succ htolerance hnonneg hle, expand]
  simp only [hx.second_advance, if_neg (not_passes_of_nan x tolerance _)]
  exact expand_of_nan more one_div_nan

end

end Tiny

end Quadra.Fraction
