import Quadra.Proofs.Numeric.Floor
import Quadra.Proofs.Numeric.SquareRoot

set_option autoImplicit false

/-!
# Perfect squares

The test for a perfect square asks whether the computed root is within `epsilon` of an integer. It is
right on the integers below `126473²`: up to there the root of a square is close enough to its side, and
a root that is close to an integer has a square that is closer than one to the number.
-/

namespace Quadra.Numeric

open Binary64

/-! ## The test -/

/-- A root near enough to an integer passes. -/
theorem abs_sub_round_lt {s : Binary64} (hs : s.isFinite = true) {n : Nat} (hn₁ : 1 ≤ n)
    (hn : n ≤ 131072) (hclose : |s.value - n| ≤ 68 / 68719476736) :
    abs (s - round s) < epsilon := by
  have hn₁' : (1 : Rat) ≤ n := by exact_mod_cast hn₁
  have hn' : (n : Rat) ≤ 131072 := by exact_mod_cast hn
  have hdistance := abs_le.mp hclose
  obtain ⟨hfinite, m, hm, -, hnear⟩ := round_spec hs (abs_le.mpr ⟨by linarith, by linarith⟩)
  obtain rfl : m = n := hnear n (by push_cast; linarith)
  rw [Int.cast_natCast] at hm
  have hdifference := rounds_sub hs hfinite (by
    rw [hm]
    exact lt_overflowBound_of_moderate (by linarith))
  rw [hm] at hdifference
  have herror := abs_le.mp hdifference.error_le
  rw [lt_iff_value_lt (isFinite_abs hdifference.isFinite) isFinite_epsilon,
    value_abs hdifference.isFinite]
  refine lt_of_le_of_lt ?_ epsilon_near.1
  rw [abs_le]
  constructor <;> linarith

/-- A root that passes is near an integer. -/
theorem exists_abs_sub_lt {s : Binary64} (hs : s.isFinite = true) (hnonneg : 0 ≤ s.value)
    (hle : s.value ≤ 1099511627776) (h : abs (s - round s) < epsilon) :
    ∃ m : Int, |s.value - m| ≤ 3 / 1000000000 := by
  obtain ⟨hfinite, m, hm, hone, -⟩ := round_spec hs (by rwa [abs_of_nonneg hnonneg])
  have hdifference := rounds_sub hs hfinite (by
    rw [hm]
    exact lt_overflowBound_of_moderate (by linarith))
  rw [hm] at hdifference
  rw [lt_iff_value_lt (isFinite_abs hdifference.isFinite) isFinite_epsilon,
    value_abs hdifference.isFinite] at h
  have herror := abs_le.mp hdifference.error_le
  have hsmall := abs_lt.mp (lt_trans h epsilon_near.2)
  refine ⟨m, abs_le.mpr ⟨?_, ?_⟩⟩ <;> linarith

/-- A root whose square is within one half of an integer is near another integer only when the former
is the square of the latter. -/
theorem eq_sq_of_near {g : Rat} {d m : Int} (hg : 0 ≤ g) (hgle : g ≤ 262144)
    (hsquare : |g ^ 2 - d| ≤ 1 / 2) (hnear : |g - m| ≤ 3 / 1000000000) : d = m ^ 2 := by
  have hfactored : g ^ 2 - (m : Rat) ^ 2 = (g - m) * (2 * g - (g - m)) := by ring
  have hsum : |2 * g - (g - m)| ≤ 524289 := by
    rw [abs_le] at hnear ⊢
    constructor <;> linarith
  have hclose : |g ^ 2 - (m : Rat) ^ 2| ≤ 3 / 1000000000 * 524289 := by
    rw [hfactored, abs_mul]
    exact mul_le_mul hnear hsum (abs_nonneg _) (by norm_num)
  rw [abs_le] at hsquare hclose
  have hlow : (d : Rat) < (m : Rat) ^ 2 + 1 := by linarith
  have hhigh : (m : Rat) ^ 2 < d + 1 := by linarith
  have hlow' : d < m ^ 2 + 1 := by exact_mod_cast hlow
  have hhigh' : m ^ 2 < d + 1 := by exact_mod_cast hhigh
  omega

/-- The perfect squares below `126473²` are told apart from the other integers. -/
theorem isPerfectSquare_iff {x : Binary64} {d : Int} (hx : x.isFinite = true) (hxd : x.value = d)
    (hpos : 0 < d) (hlt : d < 126473 ^ 2) : isPerfectSquare x = true ↔ IsSquare d := by
  have hnonneg : ¬ x < 0 := by
    rw [lt_zero_iff hx, hxd]
    exact not_lt.mpr (by exact_mod_cast hpos.le)
  have htest : isPerfectSquare x = true ↔ abs (sqrt x - round (sqrt x)) < epsilon := by
    rw [isPerfectSquare, if_neg hnonneg]
    exact decide_eq_true_iff
  have hone : (1 : Rat) ≤ d := by exact_mod_cast hpos
  have hd : (d : Rat) ≤ 126473 ^ 2 := by exact_mod_cast hlt.le
  rw [htest]
  constructor
  · -- the square of the root is closer to the number than any other integer
    intro h
    have hmoderate := calibration_129083.moderate hx (by rw [hxd]; exact hone)
      (by rw [hxd]; push_cast; linarith)
    obtain ⟨hfinite, hroot, hge, hle⟩ := sqrt_bounds hmoderate
    rw [hxd] at hge hle
    have henvelope := calibration_129083.envelope_le'
    have hle' : (sqrt x).value ^ 2 ≤ (1 + 1 / 25000000000000) * d := by
      refine le_trans hle (mul_le_mul_of_nonneg_right (le_trans henvelope ?_) (by linarith))
      norm_num
    have hsmall : (sqrt x).value ≤ 262144 :=
      le_of_pow_le_pow_left₀ two_ne_zero (by norm_num) (by linarith)
    obtain ⟨m, hm⟩ := exists_abs_sub_lt hfinite hroot (by linarith) h
    have hsquare := eq_sq_of_near (d := d) hroot hsmall (by
      rw [abs_le]
      constructor <;> linarith) hm
    exact ⟨m, by rw [hsquare, sq]⟩
  · rintro ⟨m, hm⟩
    -- the side of the square, which is positive
    obtain ⟨n, hn⟩ : ∃ n : Nat, d = n ^ 2 := ⟨m.natAbs, by rw [Int.natAbs_sq, hm, sq]⟩
    have hn₁ : 1 ≤ n := by
      rcases Nat.eq_zero_or_pos n with rfl | h
      · omega
      · exact h
    have hn₂ : n ≤ 126472 := by
      by_contra hlarge
      have : (126473 : Int) ^ 2 ≤ (n : Int) ^ 2 := by gcongr; omega
      omega
    have hxn : x.value = (n : Rat) ^ 2 := by rw [hxd, hn]; push_cast; rfl
    have hn' : (n : Rat) ≤ 126472 := by exact_mod_cast hn₂
    obtain ⟨hfinite, hlow, hhigh⟩ := calibration_126472.sqrt_square hx hxn hn₂ hn₁
    refine abs_sub_round_lt hfinite hn₁ (by omega) (abs_le.mpr ⟨?_, ?_⟩)
    · linarith
    · push_cast at hhigh
      linarith

end Quadra.Numeric
