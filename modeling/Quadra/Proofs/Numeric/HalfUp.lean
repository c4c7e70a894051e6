import Quadra.Proofs.Binary64.Nearest

set_option autoImplicit false

/-!
# Rounding half up

`round` takes the floor of the sum with one half, and this sum is rounded itself. It is the floor of the
exact sum for all numbers but those of `RoundsTooFar`, which go to the next integer: `round_half_up_iff`.
-/

namespace Quadra.Numeric

open Binary64

/-! ## Floors of sums with one half -/

theorem floor_intCast_add_half (n : Int) : ((n : Rat) + 1 / 2).floor = n :=
  floor_eq_of_bounds (by linarith) (by linarith)

section

variable {x : Binary64} (hx : x.isFinite = true)

include hx

/-- A sum with one half that is a number is not rounded. -/
theorem round_of_representable {y : Binary64} (hy : y.isFinite = true)
    (hvalue : y.value = x.value + 1 / 2) : (round x).value = (x.value + 1 / 2).floor := by
  rw [(value_round hx).2, (rounds_add_half hx).value_eq_of_eq hy hvalue]

end

/-! ## From `2 ^ 52` on -/

/-- The mantissa of an odd integer beyond `2 ^ 52` is its magnitude. -/
theorem mantissa_of_odd {x : Binary64} (hx : x.isFinite = true) {n : Int} (hn : x.value = n)
    (hodd : n % 2 = 1) (hlarge : 4503599627370496 ≤ n.natAbs) :
    x.mantissa = n.natAbs ∧ n.natAbs < 9007199254740992 := by
  obtain ⟨s, m, e, hc, rfl⟩ := eq_finite_of_isFinite hx
  have habs : ((n.natAbs : Nat) : Rat) = m * 2 ^ e := by
    rw [← abs_value_finite s hc, ratAbs_eq, hn, Nat.cast_natAbs, Int.cast_abs]
  have hm := hc.1
  rcases lt_trichotomy e 0 with hneg | rfl | hpos
  · -- a grid with halves ends below `2 ^ 52`
    have hgrid : (2 : Rat) ^ e ≤ 2 ^ (-1 : Int) := two_zpow_mono (by omega)
    have hupper : (m : Rat) * 2 ^ e ≤ m * 2 ^ (-1 : Int) :=
      mul_le_mul_of_nonneg_left hgrid (Nat.cast_nonneg m)
    have hm' : (m : Rat) + 1 ≤ 9007199254740992 := by exact_mod_cast hm
    have hlarge' : (4503599627370496 : Rat) ≤ n.natAbs := by exact_mod_cast hlarge
    rw [zpow_neg_one] at hupper
    linarith
  · rw [zpow_zero, mul_one] at habs
    have heq : n.natAbs = m := by exact_mod_cast habs
    exact ⟨heq.symm, by omega⟩
  · -- on a coarser grid all integers are even
    obtain ⟨d, rfl⟩ : ∃ d : Nat, e = 1 + d := ⟨(e - 1).toNat, by omega⟩
    rw [two_zpow_add, zpow_natCast, zpow_one] at habs
    have heven : n.natAbs = m * (2 * 2 ^ d) := by exact_mod_cast habs
    rw [Nat.mul_left_comm] at heven
    omega

section

variable {x : Binary64} (hx : x.isFinite = true) {n : Int} (hn : x.value = n)

include hn

theorem abs_sub_add_half : |x.value - (n + 1 / 2)| = 1 / 2 := by
  rw [hn, sub_add_cancel_left, abs_neg, abs_half]

include hx

/-- Behind `2 ^ 52` the sum of an integer and one half is rounded to this integer or to the next. -/
theorem add_half_of_large (hlarge : 4503599627370496 ≤ n ∨ n < -4503599627370496) :
    (x + 0.5).value = n ∨ (x + 0.5).value = ((n + 1 : Int) : Rat) := by
  have hsum := rounds_add_half hx
  rw [hn] at hsum
  have hnear := hsum.isNearest.le x hx
  rw [abs_sub_add_half hn, abs_le] at hnear
  have hlarge' : 4503599627370496 ≤ |(x + 0.5).value| := by
    rcases hlarge with hpos | hneg
    · have hpos' : (4503599627370496 : Rat) ≤ n := by exact_mod_cast hpos
      exact le_trans (by linarith) (le_abs_self _)
    · have hneg' : (n : Rat) + 1 ≤ -4503599627370496 := by exact_mod_cast hneg
      exact le_trans (by linarith) (neg_le_abs _)
  obtain ⟨k, hk⟩ := exists_eq_intCast_of_large hsum.isFinite hlarge'
  have hlow : n ≤ k := by
    have : (n : Rat) ≤ k := by linarith
    exact_mod_cast this
  have hhigh : k ≤ n + 1 := by
    have : (k : Rat) ≤ n + 1 := by linarith
    exact_mod_cast this
  rw [hk]
  norm_cast
  omega

/-- Of the two it is the even one, since they are equally near. -/
theorem even_of_add_half {k : Int} (hk : (x + 0.5).value = k) (hnext : k = n ∨ k = n + 1)
    (hlarge : 4503599627370496 ≤ k.natAbs) : k % 2 = 0 := by
  have hsum := rounds_add_half hx
  rw [hn] at hsum
  by_contra hodd
  obtain ⟨hmantissa, hsmall⟩ := mantissa_of_odd hsum.isFinite hk (by omega) hlarge
  -- the other one is a number as well
  obtain ⟨y, hy, hvalue⟩ := exists_value_eq_intCast (n := 2 * n + 1 - k) (abs_le.mpr (by omega))
  have hother : |y.value - (n + 1 / 2)| = |(x + 0.5).value - (n + 1 / 2)| := by
    rw [hvalue, hk, ← abs_neg]
    congr 1
    push_cast
    ring
  have hne : y.value ≠ (x + 0.5).value := by
    rw [hvalue, hk]
    exact_mod_cast (by omega : 2 * n + 1 - k ≠ k)
  have heven := hsum.isNearest.even y hy hne hother
  omega

theorem round_of_large (hlarge : 4503599627370496 ≤ n ∨ n < -4503599627370496) :
    (round x).value = ((if n % 2 = 0 then n else n + 1 : Int) : Rat) := by
  have hfloor : ∀ k : Int, (x + 0.5).value = k → (round x).value = k := by
    intro k hk
    rw [(value_round hx).2, hk, Rat.floor_intCast]
  rcases add_half_of_large hx hn hlarge with hstay | hnext
  · have heven := even_of_add_half hx hn hstay (.inl rfl) (by omega)
    rw [if_pos heven]
    exact hfloor n hstay
  · have heven := even_of_add_half hx hn hnext (.inr rfl) (by omega)
    rw [if_neg (by omega)]
    exact hfloor (n + 1) hnext

end

/-! ## Below `2 ^ 52` -/

/-- Between an integer other than zero and the half above it, a rational is at least one half away from
zero. -/
theorem half_le_abs {q : Rat} {n : Int} (hne : n ≠ 0) (hlow : n ≤ q) (hhigh : q < n + 1 / 2) :
    1 / 2 ≤ |q| := by
  rcases lt_or_gt_of_ne hne with hneg | hpos
  · have hneg' : (n : Rat) ≤ -1 := by exact_mod_cast Int.le_sub_one_of_lt hneg
    exact le_trans (by linarith) (neg_le_abs _)
  · have hpos' : (1 : Rat) ≤ n := by exact_mod_cast hpos
    exact le_trans (by linarith) (le_abs_self _)

/-- One half does not lead a rational out of its binade, where it stays below the next integer. -/
theorem abs_add_half_lt {q : Rat} {n : Int} {c : Nat} (hne : n ≠ 0) (hlow : n ≤ q)
    (hhigh : q < n + 1 / 2) (hc : |q| < 2 ^ c) : |q + 1 / 2| < 2 ^ c := by
  rw [abs_lt] at hc ⊢
  rcases lt_or_gt_of_ne hne with hneg | hpos
  · have hneg' : (n : Rat) ≤ -1 := by exact_mod_cast Int.le_sub_one_of_lt hneg
    constructor <;> linarith
  · have hpos' : (1 : Rat) ≤ n := by exact_mod_cast hpos
    -- the power of two is an integer above `n`
    have hn : n < 2 ^ c := by
      have : (n : Rat) < 2 ^ c := lt_of_le_of_lt hlow hc.2
      exact_mod_cast this
    have hn' : (n : Rat) + 1 ≤ 2 ^ c := by exact_mod_cast hn
    constructor <;> linarith

/-- The floor of the sum with one half is at most `2 ^ 52` in magnitude. -/
theorem abs_floor_add_half_le {q : Rat} (h : |q| < 4503599627370496) :
    |(q + 1 / 2).floor| ≤ 4503599627370496 := by
  rw [abs_lt] at h
  rw [abs_le]
  constructor
  · exact Rat.le_floor_iff.mpr (by push_cast; linarith)
  · exact Int.lt_add_one_iff.mp (Rat.floor_lt_iff.mpr (by push_cast; linarith))

section

variable {x : Binary64} (hx : x.isFinite = true)

include hx

/-- Between one half and `2 ^ 52`, the numbers below `2 ^ c` are multiples of `2 ^ (c - 53)`. -/
theorem exists_binade (hhalf : 1 / 2 ≤ |x.value|) (hsmall : |x.value| < 4503599627370496) :
    ∃ c d : Nat, c + (d + 1) = 53 ∧ |x.value| < 2 ^ c ∧
      ∃ k : Int, x.value * 2 ^ ((d + 1 : Nat) : Int) = k := by
  obtain ⟨hbinade, hbinade'⟩ := binaryExponent_bounds (lt_of_lt_of_le one_half_pos hhalf)
  have hleast : -1 < binaryExponent |x.value| + 1 := by
    refine (zpow_lt_zpow_iff_right₀ (one_lt_two (α := Rat))).mp (lt_of_le_of_lt ?_ hbinade')
    rwa [zpow_neg_one, ← one_div]
  have hmost : binaryExponent |x.value| < 52 := by
    refine (zpow_lt_zpow_iff_right₀ (one_lt_two (α := Rat))).mp (lt_of_le_of_lt hbinade ?_)
    norm_num
    exact hsmall
  obtain ⟨c, hc⟩ : ∃ c : Nat, binaryExponent |x.value| + 1 = c := Int.eq_ofNat_of_zero_le (by omega)
  obtain ⟨d, hd⟩ : ∃ d : Nat, c + (d + 1) = 53 := ⟨52 - c, by omega⟩
  rw [hc, zpow_natCast] at hbinade'
  refine ⟨c, d, hd, hbinade', exists_mul_eq_intCast hx (d + 1) ?_⟩
  calc (4503599627370496 : Rat) = 2 ^ (52 : Int) := by norm_num
    _ = 2 ^ binaryExponent |x.value| * 2 ^ ((d + 1 : Nat) : Int) := by
        rw [← two_zpow_add]
        congr 1
        omega
    _ ≤ |x.value| * 2 ^ ((d + 1 : Nat) : Int) :=
        mul_le_mul_of_nonneg_right hbinade (two_zpow_pos _).le

/-- Between an integer other than zero and the half above it, the sum with one half is a number. -/
theorem exists_value_eq_add_half {n : Int} (hne : n ≠ 0) (hlow : n ≤ x.value)
    (hhigh : x.value < n + 1 / 2) (hsmall : |x.value| < 4503599627370496) :
    ∃ y : Binary64, y.isFinite = true ∧ y.value = x.value + 1 / 2 := by
  obtain ⟨c, d, hd, hbinade, k, hk⟩ := exists_binade hx (half_le_abs hne hlow hhigh) hsmall
  have hunit := two_zpow_pos ((d + 1 : Nat) : Int)
  have hsum : (x.value + 1 / 2) * 2 ^ ((d + 1 : Nat) : Int) = ((k + 2 ^ d : Int) : Rat) := by
    rw [add_mul, hk, zpow_natCast, pow_succ]
    push_cast
    ring
  have hbound : |((k + 2 ^ d : Int) : Rat)| < 2 ^ 53 := by
    rw [← hsum, abs_mul, abs_of_pos hunit, ← hd, pow_add]
    refine mul_lt_mul_of_pos_right (abs_add_half_lt hne hlow hhigh hbinade) ?_
    positivity
  have hmantissa : (k + 2 ^ d).natAbs < 9007199254740992 := by
    rw [← Int.cast_abs, Int.abs_eq_natAbs] at hbound
    exact_mod_cast hbound
  obtain ⟨y, hy, hvalue⟩ := exists_value_eq_intCast_mul_zpow hmantissa
    (e := -((d + 1 : Nat) : Int)) (by omega) (by omega)
  refine ⟨y, hy, ?_⟩
  rw [hvalue, ← hsum, mul_assoc, ← two_zpow_add, add_neg_cancel, zpow_zero, mul_one]

/-- Between zero and one half, a sum that is rounded up to one is that of the greatest number there. -/
theorem value_eq_of_add_half_eq_one (hlow : 0 ≤ x.value) (hhigh : x.value < 1 / 2)
    (hone : (x + 0.5).value = 1) : x.value = 1 / 2 - 1 / 18014398509481984 := by
  have hpow : (2 : Rat) ^ ((54 : Nat) : Int) = 18014398509481984 := by norm_num
  -- the number next below one is not nearer
  obtain ⟨y, hy, hvalue⟩ := exists_value_eq_mul_zpow (n := 9007199254740991) (e := -53) (by norm_num)
    (by norm_num) (by norm_num)
  norm_num at hvalue
  have hnear := (rounds_add_half hx).isNearest.le y hy
  rw [hone, hvalue, abs_of_pos (by linarith)] at hnear
  have hnext : 1 / 2 - 1 / 18014398509481984 ≤ x.value := by
    rcases abs_choice (9007199254740991 / 9007199254740992 - (x.value + 1 / 2)) with h | h
    · rw [h] at hnear
      linarith
    · rw [h] at hnear
      linarith
  obtain ⟨k, hk⟩ := exists_mul_eq_intCast hx 54 (by rw [hpow, abs_of_nonneg hlow]; linarith)
  rw [hpow] at hk
  have hk₁ : 9007199254740991 ≤ k := by
    have : (9007199254740991 : Rat) ≤ k := by linarith
    exact_mod_cast this
  have hk₂ : k < 9007199254740992 := by
    have : (k : Rat) < 9007199254740992 := by linarith
    exact_mod_cast this
  obtain rfl : k = 9007199254740991 := by omega
  push_cast at hk
  linarith

/-- Below `2 ^ 52`, all other numbers are rounded to the floor of the exact sum with one half. -/
theorem round_of_small (hsmall : |x.value| < 4503599627370496)
    (hne : x.value ≠ 1 / 2 - 1 / 18014398509481984) : (round x).value = (x.value + 1 / 2).floor := by
  obtain ⟨n, hn⟩ : ∃ n, n = (x.value + 1 / 2).floor := ⟨_, rfl⟩
  have hbelow : (n : Rat) ≤ x.value + 1 / 2 := hn ▸ Rat.floor_le _
  have habove : x.value + 1 / 2 < n + 1 := by
    rw [hn]
    exact_mod_cast Rat.lt_floor_add_one _
  have hbound : |n| ≤ 4503599627370496 := hn ▸ abs_floor_add_half_le hsmall
  rw [abs_le] at hbound
  obtain ⟨y, hy, hyvalue⟩ := exists_value_eq_intCast (n := n) (abs_le.mpr (by omega))
  obtain ⟨z, hz, hzvalue⟩ := exists_value_eq_intCast (n := n + 1) (abs_le.mpr (by omega))
  have hsum := rounds_add_half hx
  have hlow := hsum.ge_of_ge hy (by rwa [hyvalue])
  have hhigh := hsum.le_of_le hz (by rw [hzvalue]; push_cast; exact habove.le)
  rw [hyvalue] at hlow
  rw [hzvalue] at hhigh
  push_cast at hhigh
  rcases hhigh.lt_or_eq with hlt | hnext
  · rw [(value_round hx).2, ← hn, floor_eq_of_bounds hlow hlt]
  · -- the sum is rounded up to the next integer, to which it must be as near as to the one below
    exfalso
    have hnear := hsum.isNearest.le y hy
    rw [hnext, hyvalue, abs_of_pos (by linarith), abs_of_nonpos (by linarith)] at hnear
    by_cases hzero : n = 0
    · subst hzero
      refine hne (value_eq_of_add_half_eq_one hx ?_ ?_ ?_)
      · push_cast at hnear
        linarith
      · push_cast at habove
        linarith
      · rw [hnext]
        norm_num
    · obtain ⟨w, hw, hwvalue⟩ := exists_value_eq_add_half hx hzero (by linarith) (by linarith) hsmall
      have hexact := hsum.value_eq_of_eq hw hwvalue
      linarith

end

/-! ## All numbers -/

/-- The numbers that are rounded too far: the greatest one below one half, `1 / 2 - 2 ^ (-54)`, and the odd
integers beyond `2 ^ 52`. -/
def RoundsTooFar (x : Binary64) : Prop :=
  x.value = 1 / 2 - 1 / 18014398509481984 ∨
    ∃ n : Int, x.value = n ∧ n % 2 = 1 ∧ 4503599627370496 < n.natAbs

/-- The greatest number below one half. -/
def belowHalf : Binary64 := .finite false 9007199254740991 (-54) (by decide)

theorem value_belowHalf : belowHalf.value = 1 / 2 - 1 / 18014398509481984 := by
  show (9007199254740991 : Rat) * 2 ^ (-54 : Int) = _
  norm_num

theorem round_belowHalf : round belowHalf = 1 := by decide +kernel

section

variable {x : Binary64} (hx : x.isFinite = true)

include hx

theorem round_of_not_roundsTooFar (h : ¬ RoundsTooFar x) :
    (round x).value = (x.value + 1 / 2).floor := by
  rcases lt_or_ge |x.value| 4503599627370496 with hsmall | hlarge
  · exact round_of_small hx hsmall fun hvalue => h (.inl hvalue)
  · obtain ⟨n, hn⟩ := exists_eq_intCast_of_large hx hlarge
    have hn₁ : 4503599627370496 ≤ n.natAbs := by
      rw [hn, ← Int.cast_abs, Int.abs_eq_natAbs] at hlarge
      exact_mod_cast hlarge
    have heven : n % 2 = 0 := by
      by_contra hodd
      exact h (.inr ⟨n, hn, by omega, by omega⟩)
    by_cases hleast : n = -4503599627370496
    · -- the sum is below `2 ^ 52` again and has a half
      obtain ⟨y, hy, hvalue⟩ := exists_value_eq_intCast_mul_zpow (n := -9007199254740991) (e := -1)
        (by norm_num) (by norm_num) (by norm_num)
      refine round_of_representable hx hy ?_
      rw [hvalue, hn, hleast]
      norm_num
    · rw [round_of_large hx hn (by omega), if_pos heven, hn, floor_intCast_add_half]

theorem round_of_roundsTooFar (h : RoundsTooFar x) :
    (round x).value = (x.value + 1 / 2).floor + 1 := by
  rcases h with hbelow | ⟨n, hn, hodd, hlarge⟩
  · have hvalue := value_belowHalf
    have heq : x = belowHalf := by
      rw [← nearest_value hx (by rw [hbelow]; norm_num), hbelow, ← hvalue]
      exact nearest_value rfl (by rw [hvalue]; norm_num)
    have hfloor : (x.value + 1 / 2).floor = 0 :=
      floor_eq_of_bounds (by rw [hbelow]; norm_num) (by rw [hbelow]; norm_num)
    rw [hfloor, heq, round_belowHalf, value_one]
    norm_num
  · rw [round_of_large hx hn (by omega), if_neg (by omega), hn, floor_intCast_add_half]
    push_cast
    rfl

/-- **Rounding is rounding half up for all numbers that are not rounded too far, and for no others**: only
then is the result the floor of the exact sum with one half, at most one half away, and an integer its
own result. The others go to the integer behind. -/
theorem round_half_up_iff :
    (round x).isFinite = true ∧
      ((round x).value = (x.value + 1 / 2).floor ↔ ¬ RoundsTooFar x) ∧
      (|(round x).value - x.value| ≤ 1 / 2 ↔ ¬ RoundsTooFar x) ∧
      (∀ n : Int, x.value = n → ((round x).value = n ↔ ¬ RoundsTooFar x)) ∧
      (RoundsTooFar x → (round x).value = (x.value + 1 / 2).floor + 1) := by
  have hbelow : ((x.value + 1 / 2).floor : Rat) ≤ x.value + 1 / 2 := Rat.floor_le _
  have habove : x.value + 1 / 2 < (x.value + 1 / 2).floor + 1 := by
    exact_mod_cast Rat.lt_floor_add_one _
  have hfloor : (round x).value = (x.value + 1 / 2).floor ↔ ¬ RoundsTooFar x := by
    refine ⟨fun heq h => ?_, round_of_not_roundsTooFar hx⟩
    rw [round_of_roundsTooFar hx h] at heq
    linarith
  refine ⟨(value_round hx).1, hfloor, ?_, fun n hn => ?_, round_of_roundsTooFar hx⟩
  · refine ⟨fun hnear h => ?_, fun h => ?_⟩
    · rw [round_of_roundsTooFar hx h, abs_le] at hnear
      linarith
    · rw [round_of_not_roundsTooFar hx h, abs_le]
      constructor <;> linarith
  · rw [← hfloor, hn, floor_intCast_add_half]

end

/-- A half goes up also below zero. -/
theorem round_half_up_below_zero :
    ∃ x : Binary64, x.isFinite = true ∧ x.value = -5 / 2 ∧ (round x).value = -2 := by
  have hcanonical : Canonical 5629499534213120 (-51) := by decide
  have hvalue : (finite true 5629499534213120 (-51) hcanonical).value = -5 / 2 := by
    show -((5629499534213120 : Rat) * 2 ^ (-51 : Int)) = _
    norm_num
  have hhalf : ¬ RoundsTooFar (finite true 5629499534213120 (-51) hcanonical) := by
    rintro (hbelow | ⟨n, hn, -, -⟩)
    · rw [hvalue] at hbelow
      norm_num at hbelow
    · have hdouble : (2 * n : Rat) = -5 := by rw [← hn, hvalue]; norm_num
      have : 2 * n = -5 := by exact_mod_cast hdouble
      omega
  obtain ⟨-, hfloor, -⟩ := round_half_up_iff (x := finite true 5629499534213120 (-51) hcanonical) rfl
  have hsum : ((-5 / 2 : Rat) + 1 / 2).floor = -2 := floor_eq_of_bounds (by norm_num) (by norm_num)
  refine ⟨_, rfl, hvalue, ?_⟩
  rw [hfloor.mpr hhalf, hvalue, hsum]
  norm_num

/-- The greatest number below one half is rounded to one, although it is nearer to zero, and `2 ^ 52 + 1` is
rounded to `2 ^ 52 + 2`. -/
theorem round_not_half_up :
    belowHalf.isFinite = true ∧ (round belowHalf).value = 1 ∧ (belowHalf.value + 1 / 2).floor = 0 ∧
      ¬ |(round belowHalf).value - belowHalf.value| ≤ 1 / 2 ∧
      round (finite false 4503599627370497 0 (by decide)) =
        finite false 4503599627370498 0 (by decide) := by
  have hround : (round belowHalf).value = 1 := by rw [round_belowHalf, value_one]
  refine ⟨rfl, hround, ?_, ?_, by decide +kernel⟩
  · rw [value_belowHalf]
    exact floor_eq_of_bounds (by norm_num) (by norm_num)
  · rw [hround, value_belowHalf]
    norm_num

end Quadra.Numeric
