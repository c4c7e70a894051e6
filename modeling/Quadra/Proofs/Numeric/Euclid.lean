import Quadra.Numeric.Gcd
import Quadra.Proofs.Numeric.HalfUp

set_option autoImplicit false

/-!
# Euclid's algorithm on numbers

The remainder of two integers that are numbers is a number, at every magnitude, so that it is not
rounded. The loop on numbers therefore takes the steps of Euclid's algorithm on the integers, and ends with
their greatest common divisor: `gcd_isNat`.
-/

namespace Quadra

namespace Binary64

/-! ## Natural numbers -/

/-- The number `x` is the natural number `n`. Its zero is the positive one. -/
structure IsNat (n : Nat) (x : Binary64) : Prop where
  isFinite : x.isFinite = true
  isNegative : x.isNegative = false
  value_eq : x.value = n

/-- There is one number for a natural number. -/
theorem IsNat.eq_ofInt {n : Nat} {x : Binary64} (h : IsNat n x) : x = ofInt n := by
  rw [ofInt, Int.cast_natCast]
  rcases Nat.eq_zero_or_pos n with rfl | hpos
  · have hzero := eq_zero_of_value_eq_zero h.isFinite (h.value_eq.trans Nat.cast_zero)
    rw [h.isNegative] at hzero
    rw [hzero, Nat.cast_zero, nearest_zero]
  · rw [← h.value_eq, nearest_value h.isFinite]
    rw [h.value_eq]
    exact_mod_cast hpos.ne'

theorem isNat_nearest {n : Nat} (h : ∃ x : Binary64, x.isFinite = true ∧ x.value = n) :
    IsNat n (nearest n) := by
  obtain ⟨hfinite, hvalue⟩ := value_nearest h
  refine ⟨hfinite, ?_, hvalue⟩
  have hnonneg : (0 : Rat) ≤ n := Nat.cast_nonneg n
  have hrange := abs_value_lt_overflowBound hfinite
  rw [hvalue, abs_of_nonneg hnonneg] at hrange
  rw [nearest, if_neg (not_lt.mpr hnonneg)]
  exact ((ofMagnitude_spec false hnonneg).2 hrange).2

theorem isNat_ofInt {n : Nat} (hn : n ≤ 9007199254740992) : IsNat n (ofInt n) := by
  rw [ofInt, Int.cast_natCast]
  have h := exists_value_eq_intCast (n := n) (by rw [Nat.abs_cast]; omega)
  rw [Int.cast_natCast] at h
  exact isNat_nearest h

/-! ## Remainders -/

/-- A multiple of a power of two is a number when it is at most another with a mantissa of 53 bits. -/
theorem exists_value_eq_of_le {q : Rat} {n : Int} {m : Nat} {e : Int} (hq : q = n * 2 ^ e)
    (hnonneg : 0 ≤ q) (hle : q ≤ m * 2 ^ e) (hm : m < 9007199254740992) (hlow : -1074 ≤ e)
    (hhigh : e ≤ 971) : ∃ x : Binary64, x.isFinite = true ∧ x.value = q := by
  have hpow := two_zpow_pos e
  rw [hq] at hnonneg hle
  have hn : 0 ≤ n := by exact_mod_cast nonneg_of_mul_nonneg_left hnonneg hpow
  have hn' : n ≤ m := by exact_mod_cast le_of_mul_le_mul_right hle hpow
  rw [hq]
  exact exists_value_eq_intCast_mul_zpow (by omega) hlow hhigh

/-- The remainder lies on the finer grid of the two numbers and is at most the one on this grid. -/
theorem exists_value_eq_mod {x y : Binary64} {a b : Nat} (hx : IsNat a x) (hy : IsNat b y) (hb : 0 < b) :
    ∃ z : Binary64, z.isFinite = true ∧ z.value = (a % b : Nat) := by
  obtain ⟨m, e, habs, hm, he, he'⟩ := exists_abs_value_eq hx.isFinite
  obtain ⟨m', f, habs', hm', hf, hf'⟩ := exists_abs_value_eq hy.isFinite
  rw [hx.value_eq, Nat.abs_cast] at habs
  rw [hy.value_eq, Nat.abs_cast] at habs'
  obtain ⟨c, hc⟩ : ∃ c : Nat, ((a % b : Nat) : Rat) = a - b * c := by
    refine ⟨a / b, ?_⟩
    rw [eq_sub_iff_add_eq]
    exact_mod_cast Nat.mod_add_div a b
  have hnonneg : (0 : Rat) ≤ ((a % b : Nat) : Rat) := Nat.cast_nonneg _
  rcases le_total f e with hle | hle
  · obtain ⟨k, hk⟩ := exists_eq_intCast_of_exponent m (sub_nonneg.mpr hle)
    have ha : (a : Rat) = k * 2 ^ f := by rw [habs, ← hk, mul_assoc, ← two_zpow_add, sub_add_cancel]
    refine exists_value_eq_of_le (n := k - m' * c) (m := m') (e := f) ?_ hnonneg ?_ hm' hf hf'
    · rw [hc, ha, habs']
      push_cast
      ring
    · rw [← habs']
      exact_mod_cast (Nat.mod_lt a hb).le
  · obtain ⟨k, hk⟩ := exists_eq_intCast_of_exponent m' (sub_nonneg.mpr hle)
    have hb' : (b : Rat) = k * 2 ^ e := by rw [habs', ← hk, mul_assoc, ← two_zpow_add, sub_add_cancel]
    refine exists_value_eq_of_le (n := m - k * c) (m := m) (e := e) ?_ hnonneg ?_ hm he he'
    · rw [hc, hb', habs]
      push_cast
      ring
    · rw [← habs]
      exact_mod_cast Nat.mod_le a b

/-- The remainder of natural numbers is exact. -/
theorem IsNat.mod {x y : Binary64} {a b : Nat} (hx : IsNat a x) (hy : IsNat b y) (hb : 0 < b) :
    IsNat (a % b) (x % y) := by
  have hquotient : ((a : Rat) / b).abs.floor = ((a / b : Nat) : Int) := by
    rw [ratAbs_eq, abs_of_nonneg (div_nonneg (Nat.cast_nonneg a) (Nat.cast_nonneg b))]
    exact Rat.floor_intCast_div_natCast a b
  have hdivision : (a : Rat) - (((a / b : Nat) : Int) : Rat) * b = ((a % b : Nat) : Rat) := by
    rw [Int.cast_natCast, sub_eq_iff_eq_add]
    exact_mod_cast (Nat.mod_add_div' a b).symm
  have hzero : y.isZero = false := by
    rw [← Bool.not_eq_true, isZero_iff hy.isFinite, hy.value_eq]
    exact_mod_cast hb.ne'
  have hremainder : x % y = ofMagnitude x.isNegative
      (x.value.abs - (x.value / y.value).abs.floor * y.value.abs) := by
    obtain ⟨s, m, e, h, rfl⟩ := eq_finite_of_isFinite hx.isFinite
    obtain ⟨s', m', e', h', rfl⟩ := eq_finite_of_isFinite hy.isFinite
    show remainder _ _ = _
    simp only [remainder, hzero]
    rfl
  have hnearest : x % y = nearest ((a % b : Nat) : Rat) := by
    rw [hremainder, hx.value_eq, hy.value_eq, hquotient, ratAbs_eq, ratAbs_eq, Nat.abs_cast, Nat.abs_cast,
      hdivision, hx.isNegative, nearest, if_neg (not_lt.mpr (Nat.cast_nonneg _))]
  rw [hnearest]
  exact isNat_nearest (exists_value_eq_mod hx hy hb)

end Binary64

/-! ## Integers next to magnitudes -/

namespace Numeric

open Binary64

/-- The floor of a number that is not negative is a natural number. -/
theorem exists_isNat_floor {x : Binary64} (hx : x.isFinite = true) (hnonneg : 0 ≤ x.value) :
    ∃ n : Nat, IsNat n (floor x) := by
  rcases lt_or_ge |x.value| 4503599627370496 with hsmall | hlarge
  · have hcut : 0 ≤ cut x.value := by
      rw [cut, if_neg (not_lt.mpr hnonneg)]
      exact Rat.le_floor_iff.mpr (by exact_mod_cast hnonneg)
    have hbound : |cut x.value| < 4503599627370496 := abs_cut_lt (by exact_mod_cast hsmall)
    obtain ⟨n, hn⟩ := Int.eq_ofNat_of_zero_le hcut
    rw [floor_of_small hx hsmall, if_neg fun h => absurd h.1 (not_lt.mpr hnonneg), hn]
    rw [hn, abs_lt] at hbound
    exact ⟨n, isNat_ofInt (by omega)⟩
  · obtain ⟨k, hk⟩ := exists_eq_intCast_of_large hx hlarge
    rw [abs_of_nonneg hnonneg] at hlarge
    have hpos : 0 < x.value := lt_of_lt_of_le (by norm_num) hlarge
    obtain ⟨n, rfl⟩ := Int.eq_ofNat_of_zero_le (a := k) (by rw [hk] at hnonneg; exact_mod_cast hnonneg)
    rw [floor_of_large hx (le_trans hlarge (le_abs_self _))]
    refine ⟨n, hx, ?_, hk⟩
    rw [isNegative_eq_decide hpos.ne', decide_eq_false hpos.not_gt]

/-- The integer next to a magnitude is a natural number. -/
theorem exists_isNat_round_abs {x : Binary64} (hx : x.isFinite = true) :
    ∃ n : Nat, IsNat n (round (abs x)) := by
  have hsum := rounds_add_half (isFinite_abs hx)
  refine exists_isNat_floor hsum.isFinite (hsum.nonneg ?_)
  rw [value_abs hx]
  positivity

/-- A natural number below `2 ^ 52` is its own magnitude and the integer next to it. -/
theorem round_abs_ofInt {n : Nat} (hn : n < 4503599627370496) : IsNat n (round (abs (ofInt n))) := by
  have hnat := isNat_ofInt (n := n) (by omega)
  have hvalue : (abs (ofInt n)).value = ((n : Int) : Rat) := by
    rw [value_abs hnat.isFinite, hnat.value_eq, Nat.abs_cast, Int.cast_natCast]
  have hsmall : |(abs (ofInt n)).value| < 4503599627370496 := by
    rw [hvalue, Int.cast_natCast, Nat.abs_cast]
    exact_mod_cast hn
  obtain ⟨m, hm⟩ := exists_isNat_round_abs hnat.isFinite
  obtain ⟨-, hround⟩ := round_of_integer (isFinite_abs hnat.isFinite) hvalue hsmall
  obtain rfl : m = n := by
    rw [hm.value_eq, Int.cast_natCast] at hround
    exact_mod_cast hround
  exact hm

/-! ## The loop -/

/-- The loop of Euclid's algorithm ends with this number. -/
inductive EuclidEnds : Binary64 → Binary64 → Binary64 → Prop
  | stop {u v : Binary64} (hzero : v.isZero = true) : EuclidEnds u v u
  | step {u v result : Binary64} (hzero : v.isZero = false) (hrest : EuclidEnds v (u % v) result) :
      EuclidEnds u v result

/-- The loop on natural numbers ends with their greatest common divisor, after at most as many steps as the
second of them says. -/
theorem euclid_isNat {steps a b : Nat} {u v : Binary64} (hu : IsNat a u) (hv : IsNat b v)
    (hsteps : b < steps) : EuclidEnds u v (euclid steps u v) ∧ IsNat (Nat.gcd a b) (euclid steps u v) := by
  induction steps generalizing a b u v with
  | zero => omega
  | succ steps ih =>
      rw [euclid]
      rcases Nat.eq_zero_or_pos b with rfl | hpos
      · have hzero : v.isZero = true := (isZero_iff hv.isFinite).mpr (hv.value_eq.trans Nat.cast_zero)
        rw [if_pos hzero, Nat.gcd_zero_right]
        exact ⟨.stop hzero, hu⟩
      · have hzero : v.isZero = false := by
          rw [← Bool.not_eq_true, isZero_iff hv.isFinite, hv.value_eq]
          exact_mod_cast hpos.ne'
        -- the remainder is below the divisor, and the divisor below the number of steps
        have hbelow : a % b < b := Nat.mod_lt a hpos
        obtain ⟨hends, hgcd⟩ := ih hv (hu.mod hv hpos) (by omega)
        rw [hzero, if_neg Bool.false_ne_true, Nat.gcd_comm, Nat.gcd_rec, Nat.gcd_comm]
        exact ⟨.step hzero hends, hgcd⟩

/-- From the integers next to the magnitudes of finite numbers, the loop ends with their greatest common
divisor. -/
theorem gcd_of_isNat {a b : Binary64} (ha : a.isFinite = true) (hb : b.isFinite = true) {m n : Nat}
    (hm : IsNat m (round (abs a))) (hn : IsNat n (round (abs b))) :
    EuclidEnds (round (abs a)) (round (abs b)) (gcd a b) ∧ IsNat (Nat.gcd m n) (gcd a b) := by
  have hsteps : n < (round (abs b)).value.floor.toNat + 1 := by
    have hfloor : ((n : Nat) : Rat).floor = n := Rat.floor_intCast n
    rw [hn.value_eq, hfloor]
    omega
  rw [gcd, ha, hb]
  exact euclid_isNat hm hn hsteps

/-- **The greatest common divisor of numbers is that of the integers next to their magnitudes**, of whatever
size: the loop ends, with this divisor. On integers below `2 ^ 52` it is that of the words. -/
theorem gcd_isNat :
    (∀ a b : Binary64, a.isFinite = true → b.isFinite = true →
      ∃ m n : Nat, IsNat m (round (abs a)) ∧ IsNat n (round (abs b)) ∧
        EuclidEnds (round (abs a)) (round (abs b)) (gcd a b) ∧ IsNat (Nat.gcd m n) (gcd a b)) ∧
    ∀ u v : UInt64, u.toNat < 4503599627370496 → v.toNat < 4503599627370496 →
      gcd (ofInt u.toNat) (ofInt v.toNat) = ofInt (wordGcd u v).toNat := by
  constructor
  · intro a b ha hb
    obtain ⟨m, hm⟩ := exists_isNat_round_abs ha
    obtain ⟨n, hn⟩ := exists_isNat_round_abs hb
    exact ⟨m, n, hm, hn, gcd_of_isNat ha hb hm hn⟩
  · intro u v hu hv
    have hua := isNat_ofInt (n := u.toNat) (by omega)
    have hva := isNat_ofInt (n := v.toNat) (by omega)
    obtain ⟨-, hgcd⟩ := gcd_of_isNat hua.isFinite hva.isFinite (round_abs_ofInt hu) (round_abs_ofInt hv)
    rw [hgcd.eq_ofInt, toNat_wordGcd]

/-- The divisor of `-3 * 2 ^ 100` and `5 * 2 ^ 98`, and that of two words. -/
theorem gcd_isNat_large :
    IsNat (2 ^ 98) (gcd (finite true 6755399441055744 49 (by decide))
      (finite false 5629499534213120 48 (by decide))) ∧
    (12 : UInt64).toNat < 4503599627370496 ∧ (18 : UInt64).toNat < 4503599627370496 ∧
      gcd (ofInt 12) (ofInt 18) = ofInt 6 := by
  obtain ⟨m, n, hm, hn, -, hgcd⟩ := gcd_isNat.1 (finite true 6755399441055744 49 (by decide))
    (finite false 5629499534213120 48 (by decide)) rfl rfl
  refine ⟨?_, by decide, by decide, ?_⟩
  · have hround : (round (abs (finite true 6755399441055744 49 (by decide)))).value =
        (3802951800684688204490109616128 : Nat) := by decide +kernel
    have hround' : (round (abs (finite false 5629499534213120 48 (by decide)))).value =
        (1584563250285286751870879006720 : Nat) := by decide +kernel
    obtain rfl := Nat.cast_injective (hm.value_eq.symm.trans hround)
    obtain rfl := Nat.cast_injective (hn.value_eq.symm.trans hround')
    exact hgcd
  · have hwords : (wordGcd 12 18).toNat = 6 := by rw [toNat_wordGcd]; rfl
    have hgcd' := gcd_isNat.2 12 18 (by decide) (by decide)
    rw [hwords] at hgcd'
    exact hgcd'

end Numeric

end Quadra
