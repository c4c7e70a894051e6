import Quadra.Proofs.Fraction.Expansion
import Quadra.Proofs.Fraction.LowestTerms

set_option autoImplicit false

/-!
# From convergents to fractions

The two ways in which a number becomes a fraction: as the nearest integer, when it is within `epsilon`
of it, and as the convergent at which its expansion ends. Both are in lowest terms already, so nothing
is divided out, and the words of their parts hold them exactly.
-/

namespace Quadra.Fraction

open Binary64 Numeric

/-! ## Words -/

theorem toInt64_of_integer {x : Binary64} (hx : x.isFinite = true) {n : Int} (hn : x.value = n)
    (hn₁ : |n| < 9223372036854775808) : x.toInt64 = .ofInt n := by
  rw [← toInt_toInt64_of_integer hx hn hn₁, Int64.ofInt_toInt]

theorem toUInt64_of_natural {x : Binary64} (hx : x.isFinite = true) {n : Nat} (hn : x.value = n)
    (hn₁ : n < 9223372036854775808) : x.toUInt64 = .ofNat n := by
  have hcut : cut x.value = n := by
    rw [hn]
    exact_mod_cast cut_intCast n
  have hrange : x.toRange 0 18446744073709551615 = n := by
    obtain ⟨s, m, e, h, rfl⟩ := eq_finite_of_isFinite hx
    rw [toRange, hcut]
    omega
  rw [toUInt64, hrange, Int.toNat_natCast]

theorem limit_spec : limit.isFinite = true ∧ limit.value = 9223372036854775808 := by
  have hnumber := value_nearest (q := 9223372036854775808)
    (by
      obtain ⟨y, hy, hvalue⟩ :=
        exists_value_eq_mul_zpow (n := 1) (e := 63) (by norm_num) (by norm_num) (by norm_num)
      refine ⟨y, hy, ?_⟩
      rw [hvalue]
      norm_num)
  exact hnumber

theorem limit_le_iff {x : Binary64} (hx : x.isFinite = true) :
    limit ≤ x ↔ 9223372036854775808 ≤ x.value := by
  rw [le_iff_value_le limit_spec.1 hx, limit_spec.2]

theorem toNat_ofNat_of_lt {d : Nat} (hd : d < 9223372036854775808) : (UInt64.ofNat d).toNat = d :=
  UInt64.toNat_ofNat_of_lt' (lt_of_lt_of_le hd (by decide))

theorem toInt_ofInt_of_abs_lt {n : Int} (hn : |n| < 9223372036854775808) :
    (Int64.ofInt n).toInt = n := by
  rw [abs_lt] at hn
  exact Int64.toInt_ofInt_of_le (by omega) (by omega)

/-- The reduced fraction of two integers has their value. -/
theorem cross_reduce {n : Int} {d : Nat} (hn : |n| < 9223372036854775808) (hd : 1 ≤ d)
    (hd₁ : d < 9223372036854775808) : (reduce (.ofInt n) (.ofNat d)).numer.toInt * d =
      n * (reduce (.ofInt n) (.ofNat d)).denom.toNat := by
  have hdenom := toNat_ofNat_of_lt hd₁
  have hwraps : ¬ Wraps (.ofInt n) (.ofNat d) := by
    rintro ⟨-, hlimit⟩
    rw [hlimit] at hdenom
    exact absurd hdenom hd₁.ne'
  have hvalue := (denotes_reduce_iff (.ofInt n) (.ofNat d)).mpr hwraps
  rwa [Denotes, hdenom, max_eq_left hd, toInt_ofInt_of_abs_lt hn] at hvalue

/-- Parts without a common divisor are left as they are. -/
theorem reduce_of_coprime {n : Int} {d : Nat} (hn : |n| < 9223372036854775808) (hd : 1 ≤ d)
    (hd₁ : d < 9223372036854775808) (hcoprime : Nat.Coprime n.natAbs d) :
    reduce (.ofInt n) (.ofNat d) = ⟨.ofInt n, .ofNat d⟩ := by
  have hnumer := toInt_ofInt_of_abs_lt hn
  have hdenom := toNat_ofNat_of_lt hd₁
  refine (irreducible_reduce _ _).eq_of_cross ⟨?_, ?_⟩ ?_
  · rwa [hdenom]
  · rwa [hnumer, hdenom]
  · rw [hdenom, hnumer]
    exact cross_reduce hn hd hd₁

theorem ofInteger_ofInt {n : Int} (hn : |n| < 9223372036854775808) :
    ofInteger (.ofInt n) = ⟨.ofInt n, 1⟩ :=
  reduce_of_coprime hn le_rfl (by norm_num) (Nat.coprime_one_right _)

/-! ## Integers -/

/-- What is rounded from at least one part in a billion is at least the tolerance. -/
theorem epsilon_le_of_rounds {y : Binary64} {q : Rat} (h : Rounds y q) (hq : 1 / 1000000000 ≤ |q|) :
    epsilon.value ≤ |y.value| := by
  have hepsilon : epsilon.value = (nearest (1 / 1000000000)).value := by
    rw [epsilon, show (1e-9 : Binary64) = nearest (1e-9) from rfl]
    norm_num
  have hrange : |(1 : Rat) / 1000000000| < overflowBound :=
    lt_overflowBound_of_moderate (by norm_num)
  have hq' := h.inRange
  rw [hepsilon, h.value_eq]
  rcases le_total 0 q with hpos | hneg
  · rw [abs_of_nonneg hpos] at hq
    exact le_trans (value_nearest_mono hq hrange hq') (le_abs_self _)
  · rw [abs_of_nonpos hneg] at hq
    have hmono := value_nearest_mono hq hrange (by rwa [abs_neg])
    rw [value_nearest_neg] at hmono
    exact le_trans hmono (neg_le_abs _)

section

variable {x : Binary64} (hx : x.isFinite = true)

include hx

/-- A number that passes the test for an integer is within one part in a billion of it. -/
theorem exists_integer_of_near (h : abs (x - round x) < epsilon) :
    (round x).isFinite = true ∧ ∃ n : Int, (round x).value = n ∧ |x.value - n| < 1 / 1000000000 := by
  have hdifference : (x - round x).isFinite = true := by
    rcases hy : x - round x with _ | s | ⟨s, m, e, hc⟩
    · rw [hy] at h
      exact absurd h (by decide +kernel)
    · rw [hy] at h
      cases s
      · exact absurd h (by decide +kernel)
      · exact absurd h (by decide +kernel)
    · rfl
  have hround := (isFinite_of_isFinite_sub hdifference).2
  have hsum : (x + 0.5).isFinite = true := by
    by_contra hinfinite
    rw [Numeric.round, floor, if_pos (by simp [hinfinite])] at hround
    exact hinfinite hround
  have hvalue : (round x).value = (x + 0.5).value.floor := (floor_spec hsum).2
  have hrounds := rounds_sub hx hround ((isFinite_sub_iff hx hround).mp hdifference)
  refine ⟨hround, _, hvalue, ?_⟩
  by_contra hfar
  rw [lt_iff_value_lt (isFinite_abs hdifference) isFinite_epsilon, value_abs hdifference] at h
  have hle := epsilon_le_of_rounds hrounds (by rw [hvalue]; exact not_lt.mp hfar)
  exact absurd h (not_lt.mpr hle)

/-- A number that fails it is not too small. -/
theorem le_abs_value_of_far (h : ¬ abs (x - round x) < epsilon) : 99 / 100000000000 ≤ |x.value| := by
  by_contra hsmall
  have hsmall' := not_le.mp hsmall
  obtain ⟨hfinite, hvalue⟩ := sub_round_of_small hx (by linarith)
  apply h
  rw [lt_iff_value_lt (isFinite_abs hfinite) isFinite_epsilon, value_abs hfinite, hvalue]
  exact lt_trans hsmall' epsilon_near.1

/-- A number near an integer that fits becomes this integer. -/
theorem approximate_of_near (h : abs (x - round x) < epsilon) {n : Int} (hn : (round x).value = n)
    (terms : Nat) : approximate x epsilon terms =
      if 9223372036854775808 ≤ |n| then .error (.outOfRange x) else .ok ⟨.ofInt n, 1⟩ := by
  obtain ⟨hround, -⟩ := exists_integer_of_near hx h
  have hlimit : limit ≤ abs (round x) ↔ 9223372036854775808 ≤ |n| := by
    rw [limit_le_iff (isFinite_abs hround), value_abs hround, hn]
    exact_mod_cast Iff.rfl
  rw [approximate, if_neg (by simp [hx])]
  simp only [if_pos h, hlimit]
  split
  · rfl
  · rename_i hfits
    rw [toInt64_of_integer hround hn (not_le.mp hfits), ofInteger_ofInt (not_le.mp hfits)]

/-! ## Convergents -/

/-- The signed numerator of a fraction for `x`. -/
def signed (x : Binary64) (n : Nat) : Int := if x < 0 then -n else n

omit hx in
theorem natAbs_signed (n : Nat) : (signed x n).natAbs = n := by
  rw [signed]
  split
  · rw [Int.natAbs_neg, Int.natAbs_natCast]
  · exact Int.natAbs_natCast n

omit hx in
theorem abs_signed_lt {n : Nat} (hn : n < 9223372036854775808) : |signed x n| < 9223372036854775808 := by
  rw [Int.abs_eq_natAbs, natAbs_signed]
  exact_mod_cast hn

omit hx in
/-- The sign as a word. -/
theorem sign_mul_ofInt (n : Nat) : (if x < 0 then -1 else 1) * Int64.ofInt n = .ofInt (signed x n) := by
  rw [signed]
  split
  · rw [← Int64.neg_eq_neg_one_mul, Int64.ofInt_neg]
  · exact Int64.one_mul _

/-- An integer is its magnitude with its sign. -/
theorem signed_natAbs_of_integer {n : Int} (hn : x.value = n) : signed x n.natAbs = n := by
  have hlt : x < 0 ↔ n < 0 := by
    rw [lt_zero_iff hx, hn]
    exact_mod_cast Iff.rfl
  simp only [signed, hlt]
  split <;> omega

theorem abs_signed_sub (n : Nat) (q : Rat) :
    |(signed x n : Rat) / q - x.value| = |(n : Rat) / q - (|x.value|)| := by
  have hlt := lt_zero_iff hx
  rw [signed]
  split
  · rename_i hneg
    rw [abs_of_neg (hlt.mp hneg), ← abs_neg]
    congr 1
    push_cast
    ring
  · rename_i hnonneg
    rw [abs_of_nonneg (not_lt.mp (mt hlt.mpr hnonneg)), Int.cast_natCast]

section

variable {tolerance : Binary64} (hfar : ¬ abs (x - round x) < tolerance) {terms : Nat} {c : Convergents}
  (hc : expand (abs x) tolerance terms (.start (abs x)) = c)

include hfar hc

/-- A convergent with a part that does not fit is a fault. -/
theorem approximate_of_limit (h : limit ≤ c.h ∨ limit ≤ c.k) :
    approximate x tolerance terms = .error (.outOfRange x) := by
  rw [approximate, if_neg (by simp [hx])]
  simp only [if_neg hfar, hc, Bool.or_eq_true, decide_eq_true_iff, if_pos h]

/-- The parts of the convergent at which an expansion ends are read as integers, and reduced. -/
theorem approximate_of_integers {h k : Nat} (hh : c.h.isFinite = true ∧ c.h.value = h)
    (hk : c.k.isFinite = true ∧ c.k.value = k) (hk₁ : k < 9223372036854775808) :
    approximate x tolerance terms =
      if 9223372036854775808 ≤ h then .error (.outOfRange x)
      else .ok (reduce (.ofInt (signed x h)) (.ofNat k)) := by
  have hlimit : (limit ≤ c.h ∨ limit ≤ c.k) ↔ 9223372036854775808 ≤ h := by
    rw [limit_le_iff hh.1, limit_le_iff hk.1, hh.2, hk.2]
    norm_cast
    omega
  split
  · rename_i hlarge
    exact approximate_of_limit hx hfar hc (hlimit.mpr hlarge)
  · rename_i hfits
    have hword : (if x < 0 then -1 else 1) * c.h.toInt64 = .ofInt (signed x h) := by
      rw [toInt64_of_integer hh.1 (n := h) (by exact_mod_cast hh.2) (by rw [Nat.abs_cast]; omega),
        sign_mul_ofInt]
    rw [approximate, if_neg (by simp [hx])]
    simp only [if_neg hfar, hc, Bool.or_eq_true, decide_eq_true_iff, hlimit, if_neg hfits, hword,
      toUInt64_of_natural hk.1 hk.2 hk₁]

/-- A number that is not near an integer becomes the convergent at which its expansion ends. -/
theorem approximate_of_far {h k : Nat} (hh : c.h.isFinite = true ∧ c.h.value = h)
    (hk : c.k.isFinite = true ∧ c.k.value = k) (hk₁ : 1 ≤ k) (hk₂ : k < 9223372036854775808)
    (hcoprime : Nat.Coprime h k) :
    approximate x tolerance terms =
      if 9223372036854775808 ≤ h then .error (.outOfRange x) else .ok ⟨.ofInt (signed x h), .ofNat k⟩ := by
  rw [approximate_of_integers hx hfar hc hh hk hk₂]
  split
  · rfl
  · rename_i hfits
    have hmagnitude : |signed x h| < 9223372036854775808 := abs_signed_lt (not_le.mp hfits)
    rw [reduce_of_coprime hmagnitude hk₁ hk₂ (by rwa [natAbs_signed])]

end

end

section

variable {x : Binary64} (hx : x.isFinite = true) (hlarge : 4503599627370496 ≤ x.value)

include hx hlarge

/-- The first convergent of a number from `2 ^ 52` on is the number over one. -/
theorem start_advance_of_large : (Convergents.start x).advance.h = x ∧
    (Convergents.start x).advance.k.isFinite = true ∧ (Convergents.start x).advance.k.value = 1 := by
  have hterm : floor x = x := floor_of_large hx (le_trans hlarge (le_abs_self _))
  have hproduct := value_mul_of_integer hx isFinite_ofNat_zero (n := 0) (by norm_num)
    (by rw [value_ofNat_zero, mul_zero, Int.cast_zero])
  have hk := value_add_of_integer hproduct.1 isFinite_ofNat_one (n := 1) (by norm_num)
    (by rw [hproduct.2, value_one]; norm_num)
  rw [Int.cast_one] at hk
  rw [Convergents.start, Convergents.advance]
  simp only [hterm]
  refine ⟨?_, hk⟩
  rw [mul_one_of_isFinite hx, ofNat_zero, add_zero_of_ne _ hx (by linarith)]

/-- So an expansion ends there: the difference that is tested is zero. -/
theorem stops_start_of_large : Stops x (Convergents.start x).advance := by
  obtain ⟨hh, hk, hone⟩ := start_advance_of_large hx hlarge
  have hquotient : x.value / (Convergents.start x).advance.k.value = x.value := by rw [hone, div_one]
  have hdivided := rounds_div hx hk (by rw [hone]; exact one_ne_zero)
    (by rw [hquotient]; exact abs_value_lt_overflowBound hx)
  rw [hquotient] at hdivided
  have hvalue := hdivided.value_eq_of_eq hx rfl
  have hdifference := value_sub_of_integer hx hdivided.isFinite (n := 0) (by norm_num)
    (by rw [hvalue, sub_self, Int.cast_zero])
  obtain ⟨hε₀, hε₁⟩ := epsilon_bounds
  have htolerance : 0 ≤ x.value * epsilon.value := mul_nonneg (by linarith) hε₀.le
  have hproduct := rounds_mul hx isFinite_epsilon (by
    have hrange := abs_value_lt_overflowBound hx
    have hle : x.value * epsilon.value ≤ x.value * 1 := mul_le_mul_of_nonneg_left hε₁.le (by linarith)
    rw [abs_of_nonneg htolerance]
    linarith [le_abs_self x.value])
  rw [Stops, hh, le_iff_value_le (isFinite_abs hdifference.1) hproduct.isFinite,
    value_abs hdifference.1, hdifference.2, Int.cast_zero, abs_zero]
  exact hproduct.nonneg htolerance

theorem expand_of_large (terms : Nat) :
    expand x epsilon (terms + 1) (.start x) = (Convergents.start x).advance := by
  rw [expand]
  exact if_pos (stops_start_of_large hx hlarge)

end

end Quadra.Fraction
