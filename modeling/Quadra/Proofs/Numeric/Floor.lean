import Quadra.Proofs.Binary64.Special
import Quadra.Proofs.Polynomial.Significance

set_option autoImplicit false

/-!
# Integer parts

The floor of a finite number is the floor of its value, at every magnitude: from `2 ^ 52` on a number
is an integer already, and below it the number is cut toward zero and put right when it is negative. So
it is the greatest integer that does not exceed the number: `floor_greatest`. What a number exceeds its
floor by is a number too, so the difference of the two is exact.
-/

namespace Quadra

namespace Binary64

/-! ## Values as integers -/

theorem equals_iff_value_eq {x y : Binary64} (hx : x.isFinite = true) (hy : y.isFinite = true) :
    x.equals y = true ↔ x.value = y.value := by
  obtain ⟨s, m, e, h, rfl⟩ := eq_finite_of_isFinite hx
  obtain ⟨s', m', e', h', rfl⟩ := eq_finite_of_isFinite hy
  exact decide_eq_true_iff

/-- The magnitude of a finite number is a mantissa of at most 53 bits on a grid. -/
theorem exists_abs_value_eq {x : Binary64} (hx : x.isFinite = true) :
    ∃ (m : Nat) (e : Int), |x.value| = m * 2 ^ e ∧ m < 9007199254740992 ∧ -1074 ≤ e ∧ e ≤ 971 := by
  obtain ⟨s, m, e, hc, rfl⟩ := eq_finite_of_isFinite hx
  refine ⟨m, e, ?_, hc.1, hc.2.1, hc.2.2.1⟩
  rw [← ratAbs_eq, abs_value_finite]

/-- A grid that is no finer than the integers has integers only. -/
theorem exists_eq_intCast_of_exponent (m : Nat) {e : Int} (he : 0 ≤ e) :
    ∃ n : Int, (m : Rat) * 2 ^ e = n := by
  obtain ⟨d, rfl⟩ := Int.eq_ofNat_of_zero_le he
  refine ⟨m * 2 ^ d, ?_⟩
  push_cast
  rw [zpow_natCast]

/-- From `2 ^ (52 - d)` on every number is a multiple of `2 ^ (-d)`. -/
theorem exists_mul_eq_intCast {x : Binary64} (hx : x.isFinite = true) (d : Nat)
    (hlarge : 4503599627370496 ≤ |x.value| * 2 ^ (d : Int)) : ∃ n : Int, x.value * 2 ^ (d : Int) = n := by
  obtain ⟨m, e, habs, hm, -, -⟩ := exists_abs_value_eq hx
  have hscaled : |x.value| * 2 ^ (d : Int) = m * 2 ^ (e + d) := by rw [habs, mul_assoc, two_zpow_add]
  have he : 0 ≤ e + d := by
    by_contra hneg
    -- a grid with halves has no magnitude as large as this
    have hgrid : (2 : Rat) ^ (e + d) ≤ 2 ^ (-1 : Int) := two_zpow_mono (by omega)
    have hm' : (m : Rat) + 1 ≤ 9007199254740992 := by exact_mod_cast hm
    have hupper : (m : Rat) * 2 ^ (e + d) ≤ m * 2 ^ (-1 : Int) :=
      mul_le_mul_of_nonneg_left hgrid (Nat.cast_nonneg m)
    rw [zpow_neg_one] at hupper
    linarith
  obtain ⟨n, hn⟩ := exists_eq_intCast_of_exponent m he
  rw [← hscaled] at hn
  rcases abs_choice x.value with h | h
  · exact ⟨n, by rw [← hn, h]⟩
  · exact ⟨-n, by rw [Int.cast_neg, ← hn, h, neg_mul, Rat.neg_neg]⟩

/-- From `2 ^ 52` on every number is an integer. -/
theorem exists_eq_intCast_of_large {x : Binary64} (hx : x.isFinite = true)
    (hlarge : 4503599627370496 ≤ |x.value|) : ∃ n : Int, x.value = n := by
  have hscaled := exists_mul_eq_intCast hx 0
  rw [Nat.cast_zero, zpow_zero, mul_one, mul_one] at hscaled
  exact hscaled hlarge

/-- From `2 ^ 40` on a number that is within `10 ^ (-9)` of an integer is this integer. -/
theorem eq_intCast_of_near {x : Binary64} (hx : x.isFinite = true) (hlarge : 1099511627776 ≤ |x.value|)
    {n : Int} (hnear : |x.value - n| < 1 / 1000000000) : x.value = n := by
  have hpow : (2 : Rat) ^ ((12 : Nat) : Int) = 4096 := by norm_num
  obtain ⟨m, hm⟩ := exists_mul_eq_intCast hx 12 (by rw [hpow]; linarith)
  rw [hpow] at hm
  have heq : m = n * 4096 := by
    have hone : |((m - n * 4096 : Int) : Rat)| < 1 := by
      push_cast
      rw [abs_lt] at hnear ⊢
      constructor <;> linarith
    have hzero : m - n * 4096 = 0 := Int.abs_lt_one_iff.mp (by exact_mod_cast hone)
    omega
  rw [heq] at hm
  push_cast at hm
  linarith

/-! ## Cutting toward zero -/

/-- An integer is the floor of what lies less than one above it. -/
theorem floor_eq_of_bounds {q : Rat} {n : Int} (hlow : (n : Rat) ≤ q) (hhigh : q < n + 1) :
    q.floor = n := by
  refine le_antisymm (Int.lt_add_one_iff.mp (Rat.floor_lt_iff.mpr ?_)) (Rat.le_floor_iff.mpr hlow)
  exact_mod_cast hhigh

theorem cut_intCast (n : Int) : cut n = n := by
  rw [cut, ← Int.cast_neg, Rat.floor_intCast, Rat.floor_intCast, Int.neg_neg, ite_self]

/-- Cutting does not lead away from zero. -/
theorem abs_cut_lt {q : Rat} {n : Int} (h : |q| < n) : |cut q| < n := by
  rw [abs_lt] at h ⊢
  rw [cut]
  split
  · have hlow : 0 ≤ (-q).floor := Rat.le_floor_iff.mpr (by push_cast; linarith)
    have hhigh : (-q).floor < n := Rat.floor_lt_iff.mpr (by linarith)
    omega
  · have hlow : 0 ≤ q.floor := Rat.le_floor_iff.mpr (by push_cast; linarith)
    have hhigh : q.floor < n := Rat.floor_lt_iff.mpr (by linarith)
    omega

/-- Below zero, a fraction lies between the integer it is cut to and its floor. -/
theorem floor_eq_cut_sub_one {q : Rat} (hneg : q < 0) (hne : (cut q : Rat) ≠ q) :
    q.floor = cut q - 1 := by
  rw [cut, if_pos hneg] at hne ⊢
  have hbelow : ((-q).floor : Rat) ≤ -q := Rat.floor_le _
  have habove : -q < (-q).floor + 1 := by exact_mod_cast Rat.lt_floor_add_one _
  have hlt : ((-q).floor : Rat) < -q := by
    refine lt_of_le_of_ne hbelow fun heq => hne ?_
    rw [Int.cast_neg, heq, Rat.neg_neg]
  refine floor_eq_of_bounds ?_ ?_ <;> push_cast <;> linarith

/-- Everything else is cut to its floor. -/
theorem floor_eq_cut {q : Rat} (h : ¬ (q < 0 ∧ (cut q : Rat) ≠ q)) : q.floor = cut q := by
  by_cases hneg : q < 0
  · have hinteger : (cut q : Rat) = q := by
      by_contra hne
      exact h ⟨hneg, hne⟩
    rw [← hinteger, cut_intCast, Rat.floor_intCast]
  · rw [cut, if_neg hneg]

/-- Cutting toward zero does not saturate below `2 ^ 63`. -/
theorem toInt_toInt64 {x : Binary64} (hx : x.isFinite = true)
    (hx₁ : |x.value| < 9223372036854775808) : x.toInt64.toInt = cut x.value := by
  have hcut := abs_lt.mp (abs_cut_lt (n := 9223372036854775808) (by exact_mod_cast hx₁))
  have hrange : x.toRange (-9223372036854775808) 9223372036854775807 = cut x.value := by
    obtain ⟨s, m, e, h, rfl⟩ := eq_finite_of_isFinite hx
    rw [toRange]
    omega
  rw [toInt64, hrange, Int64.toInt_ofInt_of_le (by omega) (by omega)]

/-- An integer below `2 ^ 63` is the signed word of its number. -/
theorem toInt_toInt64_of_integer {x : Binary64} (hx : x.isFinite = true) {n : Int}
    (hn : x.value = n) (hn₁ : |n| < 9223372036854775808) : x.toInt64.toInt = n := by
  rw [toInt_toInt64 hx (by rw [hn]; exact_mod_cast hn₁), hn, cut_intCast]

end Binary64

/-! ## The floor -/

namespace Numeric

open Binary64

theorem half_eq : (0.5 : Binary64) = finite false 4503599627370496 (-53) (by decide) := by
  decide +kernel

theorem isFinite_half : (0.5 : Binary64).isFinite = true := by
  rw [half_eq]
  rfl

theorem value_half : (0.5 : Binary64).value = 1 / 2 := by
  rw [half_eq]
  show (4503599627370496 : Rat) * 2 ^ (-53 : Int) = 1 / 2
  norm_num

theorem abs_half : |(1 / 2 : Rat)| = 1 / 2 := abs_of_pos one_half_pos

section

variable {x : Binary64} (hx : x.isFinite = true)

include hx

theorem limit_le_abs_iff : (4503599627370496 : Binary64) ≤ abs x ↔ 4503599627370496 ≤ |x.value| := by
  have hlimit := value_ofInt (n := 4503599627370496) (by norm_num)
  rw [show (4503599627370496 : Binary64) = ofInt 4503599627370496 from rfl,
    le_iff_value_le hlimit.1 (isFinite_abs hx), hlimit.2, value_abs hx]
  push_cast
  exact Iff.rfl

/-- From `2 ^ 52` on a number is its own floor. -/
theorem floor_of_large (hlarge : 4503599627370496 ≤ |x.value|) : floor x = x := by
  have habs := (limit_le_abs_iff hx).mpr hlarge
  rw [floor, if_pos (by simp [habs])]

/-- Below, the floor is the number cut toward zero, or one less. -/
theorem floor_of_small (hsmall : |x.value| < 4503599627370496) :
    floor x = if x.value < 0 ∧ (cut x.value : Rat) ≠ x.value then ofInt (cut x.value) - 1
      else ofInt (cut x.value) := by
  have habs : ¬ (4503599627370496 : Binary64) ≤ abs x := by
    rw [limit_le_abs_iff hx]
    exact not_le.mpr hsmall
  have hcut := toInt_toInt64 hx (by linarith)
  have hbound : |cut x.value| < 4503599627370496 := abs_cut_lt (by exact_mod_cast hsmall)
  obtain ⟨hfinite, hvalue⟩ := value_ofInt (le_trans hbound.le (by norm_num))
  have htest : ((decide (x < 0) && !(ofInt (cut x.value)).equals x) = true) ↔
      x.value < 0 ∧ (cut x.value : Rat) ≠ x.value := by
    rw [Bool.and_eq_true, decide_eq_true_iff, lt_zero_iff hx, Bool.not_eq_true', ← Bool.not_eq_true,
      equals_iff_value_eq hfinite hx, hvalue]
  rw [floor, if_neg (by simp [hx, habs])]
  simp only [hcut, htest]

/-- The floor of a finite number is the floor of its value. -/
theorem floor_spec : (floor x).isFinite = true ∧ (floor x).value = x.value.floor := by
  rcases le_or_gt 4503599627370496 |x.value| with hlarge | hsmall
  · obtain ⟨n, hn⟩ := exists_eq_intCast_of_large hx hlarge
    rw [floor_of_large hx hlarge]
    exact ⟨hx, by rw [hn, Rat.floor_intCast]⟩
  · have hbound : |cut x.value| < 4503599627370496 := abs_cut_lt (by exact_mod_cast hsmall)
    obtain ⟨hcut, hvalue⟩ := value_ofInt (le_trans hbound.le (by norm_num))
    rw [floor_of_small hx hsmall]
    by_cases h : x.value < 0 ∧ (cut x.value : Rat) ≠ x.value
    · rw [if_pos h, floor_eq_cut_sub_one h.1 h.2]
      rw [abs_lt] at hbound
      apply value_sub_of_integer hcut isFinite_ofNat_one
      · rw [abs_le]
        omega
      · rw [hvalue, value_one]
        push_cast
        ring
    · rw [if_neg h, floor_eq_cut h]
      exact ⟨hcut, hvalue⟩

/-- Below `2 ^ 52` the floor is the number of an integer, of which the zero is the positive one. -/
theorem floor_eq_ofInt (hsmall : |x.value| < 4503599627370496) : floor x = ofInt x.value.floor := by
  obtain ⟨hfinite, hvalue⟩ := floor_spec hx
  by_cases hzero : x.value.floor = 0
  · -- no negative number has this floor, so nothing is put right
    have hnonneg : ¬ (x.value < 0 ∧ (cut x.value : Rat) ≠ x.value) := by
      intro h
      have hbelow : (x.value.floor : Rat) ≤ x.value := Rat.floor_le _
      rw [hzero, Int.cast_zero] at hbelow
      exact absurd h.1 (not_lt.mpr hbelow)
    rw [floor_of_small hx hsmall, if_neg hnonneg, floor_eq_cut hnonneg]
  · have hne : (floor x).value ≠ 0 := by
      rw [hvalue]
      exact_mod_cast hzero
    rw [ofInt, ← hvalue, nearest_value hfinite hne]

/-- A floor is its own floor, and not only as a value. -/
theorem floor_floor : floor (floor x) = floor x := by
  obtain ⟨hfinite, hvalue⟩ := floor_spec hx
  by_cases hlarge : 4503599627370496 ≤ |(floor x).value|
  · exact floor_of_large hfinite hlarge
  · have hsmall : |x.value| < 4503599627370496 := by
      by_contra h
      apply hlarge
      rw [floor_of_large hx (not_lt.mp h)]
      exact not_lt.mp h
    rw [floor_eq_ofInt hfinite (not_le.mp hlarge), hvalue, Rat.floor_intCast, floor_eq_ofInt hx hsmall]

/-- What is left of a nonnegative number above its floor is a number: it lies on the same grid. -/
theorem exists_value_eq_sub_floor (hnonneg : 0 ≤ x.value) :
    ∃ y : Binary64, y.isFinite = true ∧ y.value = x.value - x.value.floor := by
  obtain ⟨m, e, habs, hm, he, he₁⟩ := exists_abs_value_eq hx
  rw [abs_of_nonneg hnonneg] at habs
  rcases le_or_gt 0 e with hpos | hneg
  · obtain ⟨n, hn⟩ := exists_eq_intCast_of_exponent m hpos
    refine ⟨zero false, rfl, ?_⟩
    rw [habs, hn, Rat.floor_intCast, sub_self, value_zero]
  · obtain ⟨d, hd⟩ : ∃ d : Nat, e = -(d : Int) := ⟨(-e).toNat, by omega⟩
    have hquotient : x.value = (m : Rat) / ((2 ^ d : Nat) : Rat) := by
      rw [habs, hd, zpow_neg, zpow_natCast, div_eq_mul_inv]
      push_cast
      rfl
    have hfloor : x.value.floor = ((m / 2 ^ d : Nat) : Int) := by
      rw [hquotient]
      have h := Rat.floor_intCast_div_natCast m (2 ^ d)
      push_cast at h ⊢
      exact h
    obtain ⟨y, hy, hvalue⟩ := exists_value_eq_mul_zpow (n := m % 2 ^ d)
      (lt_of_le_of_lt (Nat.mod_le _ _) hm) he he₁
    refine ⟨y, hy, ?_⟩
    have hdivision : (m : Rat) = ((2 ^ d : Nat) : Rat) * ((m / 2 ^ d : Nat) : Rat) +
        ((m % 2 ^ d : Nat) : Rat) := by exact_mod_cast (Nat.div_add_mod m (2 ^ d)).symm
    have hpow : ((2 ^ d : Nat) : Rat) ≠ 0 := by positivity
    rw [hvalue, hfloor, hquotient, hd, zpow_neg, zpow_natCast, Int.cast_natCast]
    push_cast at hdivision hpow ⊢
    field_simp
    linarith

/-- The difference of a nonnegative number and its floor is exact. -/
theorem sub_floor (hnonneg : 0 ≤ x.value) :
    (x - floor x).isFinite = true ∧ (x - floor x).value = x.value - x.value.floor := by
  obtain ⟨hfloor, hvalue⟩ := floor_spec hx
  obtain ⟨y, hy, hyvalue⟩ := exists_value_eq_sub_floor hx hnonneg
  have hrounds := rounds_sub hx hfloor (by
    rw [hvalue, ← hyvalue]
    exact abs_value_lt_overflowBound hy)
  rw [hvalue] at hrounds
  exact ⟨hrounds.isFinite, hrounds.value_eq_of_eq hy hyvalue⟩

/-! ## Rounding to integers -/

/-- The largest number is half a unit below the overflow bound. -/
theorem abs_value_add_le_overflowBound : |x.value| + 2 ^ (970 : Int) ≤ overflowBound := by
  obtain ⟨m, e, habs, hm, -, he⟩ := exists_abs_value_eq hx
  have hm' : (m : Rat) ≤ 9007199254740991 := by exact_mod_cast Nat.le_of_lt_succ hm
  have hlargest : |x.value| ≤ 9007199254740991 * 2 ^ (971 : Int) := by
    rw [habs]
    exact mul_le_mul hm' (two_zpow_mono he) (two_zpow_pos e).le (by norm_num)
  rw [overflowBound, show (1024 : Int) = 54 + 970 by norm_num, two_zpow_add 54]
  rw [show (971 : Int) = 1 + 970 by norm_num, two_zpow_add 1] at hlargest
  generalize (2 : Rat) ^ (970 : Int) = unit at hlargest ⊢
  norm_num at hlargest ⊢
  linarith

/-- The sum of a number and one half never overflows. -/
theorem rounds_add_half : Rounds (x + 0.5) (x.value + 1 / 2) := by
  have hunit : (1 : Rat) / 2 < 2 ^ (970 : Int) :=
    lt_of_lt_of_le one_half_lt_one (one_le_zpow₀ (by norm_num) (by norm_num))
  have hrange : |x.value + 1 / 2| < overflowBound := by
    calc |x.value + 1 / 2| ≤ |x.value| + |1 / 2| := abs_add_le _ _
      _ = |x.value| + 1 / 2 := by rw [abs_half]
      _ < |x.value| + 2 ^ (970 : Int) := add_lt_add_right hunit _
      _ ≤ overflowBound := abs_value_add_le_overflowBound hx
  rw [← value_half] at hrange ⊢
  exact rounds_add hx isFinite_half hrange

/-- What is rounded is the floor of the rounded sum. -/
theorem value_round : (round x).isFinite = true ∧ (round x).value = (x + 0.5).value.floor :=
  floor_spec (rounds_add_half hx).isFinite

/-- A number of moderate size is rounded to an integer at most one away, and to `n` when it is within a
quarter of `n`. -/
theorem round_spec (hle : |x.value| ≤ 1099511627776) :
    (round x).isFinite = true ∧ ∃ m : Int, (round x).value = m ∧ |x.value - m| ≤ 1 ∧
      ∀ n : Int, |x.value - n| ≤ 1 / 4 → m = n := by
  have hle' := abs_le.mp hle
  have hmagnitude : |x.value + 1 / 2| ≤ 1099511627777 := abs_le.mpr ⟨by linarith, by linarith⟩
  have hsum := rounds_add_half hx
  have herror := abs_le.mp hsum.error_le
  obtain ⟨hfinite, hfloor⟩ := value_round hx
  have hbelow : ((x + 0.5).value.floor : Rat) ≤ (x + 0.5).value := Rat.floor_le _
  have habove : (x + 0.5).value < (x + 0.5).value.floor + 1 := by
    exact_mod_cast Rat.lt_floor_add_one _
  refine ⟨hfinite, (x + 0.5).value.floor, hfloor, ?_, ?_⟩
  · rw [abs_le]
    constructor <;> linarith
  · intro n hn
    rw [abs_le] at hn
    -- the sum with one half stays between `n` and `n + 1`
    exact floor_eq_of_bounds (by linarith) (by linarith)

/-- An integer below `2 ^ 52` is rounded to itself: the sum with one half is below the next integer. -/
theorem round_of_integer {n : Int} (hn : x.value = n) (hsmall : |x.value| < 4503599627370496) :
    (round x).isFinite = true ∧ (round x).value = n := by
  have hsmall' := abs_lt.mp hsmall
  have hn₁ : (n : Rat) + 1 ≤ 4503599627370496 := by
    have hlt : n < 4503599627370496 := by exact_mod_cast hn ▸ hsmall'.2
    exact_mod_cast hlt
  have hsum := rounds_add_half hx
  have hbelow := hsum.ge_of_ge hx (by linarith)
  have habove : (x + 0.5).value < n + 1 := by
    have hmagnitude : |x.value + 1 / 2| ≤ 4503599627370496 - 1 / 2 :=
      abs_le.mpr ⟨by linarith, by linarith⟩
    have herror := abs_le.mp hsum.error_le
    linarith
  obtain ⟨hfinite, hfloor⟩ := value_round hx
  refine ⟨hfinite, ?_⟩
  rw [hfloor, floor_eq_of_bounds (hn ▸ hbelow) habove]

/-- A number below `2 ^ 52` that is within `10 ^ (-9)` of an integer is rounded to it. -/
theorem round_of_near {n : Int} (hsmall : |x.value| < 4503599627370496)
    (hnear : |x.value - n| < 1 / 1000000000) : (round x).isFinite = true ∧ (round x).value = n := by
  rcases le_total |x.value| 1099511627776 with hmoderate | hlarge
  · obtain ⟨hfinite, m, hm, -, hunique⟩ := round_spec hx hmoderate
    obtain rfl : m = n := hunique n (by linarith)
    exact ⟨hfinite, hm⟩
  · exact round_of_integer hx (eq_intCast_of_near hx hlarge hnear) hsmall

/-- A number of at most a quarter is rounded to zero, and differs from that by itself. -/
theorem sub_round_of_small (hsmall : |x.value| ≤ 1 / 4) :
    (x - round x).isFinite = true ∧ (x - round x).value = x.value := by
  obtain ⟨hround, m, hm, -, hzero⟩ := round_spec hx (by linarith)
  obtain rfl : m = 0 := hzero 0 (by rwa [Int.cast_zero, sub_zero])
  have hexact : x.value - (round x).value = x.value := by rw [hm, Int.cast_zero, sub_zero]
  have hrounds := rounds_sub hx hround (by rw [hexact]; exact abs_value_lt_overflowBound hx)
  rw [hexact] at hrounds
  exact ⟨hrounds.isFinite, hrounds.value_eq_of_eq hx rfl⟩

end

/-! ## The greatest integer -/

theorem isGreatest_floor (q : Rat) : IsGreatest {m : Int | (m : Rat) ≤ q} q.floor := by
  constructor
  · exact Rat.floor_le q
  · intro m hm
    exact Rat.le_floor_iff.mpr hm

/-- The integer part of the number fits in a signed 64-bit word, which then holds it. -/
def FitsWord (x : Binary64) : Prop :=
  -9223372036854775808 ≤ cut x.value ∧ cut x.value ≤ 9223372036854775807 ∧ x.toInt64.toInt = cut x.value

theorem fitsWord_of_small {x : Binary64} (hx : x.isFinite = true)
    (hsmall : |x.value| < 4503599627370496) : FitsWord x := by
  have hcut := abs_lt.mp (abs_cut_lt (n := 4503599627370496) (by exact_mod_cast hsmall))
  refine ⟨by omega, by omega, toInt_toInt64 hx (by linarith)⟩

theorem floor_of_not_isFinite {x : Binary64} (hx : x.isFinite = false) : floor x = x := by
  simp [floor, hx]

/-- **The floor of a finite number is the greatest integer that does not exceed it**, at every magnitude
and for either sign, and it is its own floor. The word that the integer part goes through holds it
wherever the part is taken. A number that is not finite is returned as it is. -/
theorem floor_greatest (x : Binary64) :
    (x.isFinite = true →
      (∃ n : Int, ((floor x).isFinite = true ∧ (floor x).value = n) ∧
        IsGreatest {m : Int | (m : Rat) ≤ x.value} n) ∧
      floor (floor x) = floor x ∧ (¬ (4503599627370496 : Binary64) ≤ abs x → FitsWord x)) ∧
    (x.isFinite = false → floor x = x) := by
  constructor
  · intro hx
    refine ⟨⟨x.value.floor, floor_spec hx, isGreatest_floor x.value⟩, floor_floor hx, ?_⟩
    intro hsmall
    rw [limit_le_abs_iff hx, not_le] at hsmall
    exact fitsWord_of_small hx hsmall
  · exact floor_of_not_isFinite

/-- The floor of `-5/2`, and that of negative infinity. -/
theorem floor_greatest_negative :
    (-2.5 : Binary64).isFinite = true ∧ ¬ (4503599627370496 : Binary64) ≤ abs (-2.5) ∧
      (infinite true).isFinite = false ∧
      ((∃ n : Int, ((floor (-2.5)).isFinite = true ∧ (floor (-2.5)).value = n) ∧
          IsGreatest {m : Int | (m : Rat) ≤ (-2.5 : Binary64).value} n) ∧
        floor (floor (-2.5)) = floor (-2.5) ∧ FitsWord (-2.5)) ∧
      floor (infinite true) = infinite true := by
  have hfinite : (-2.5 : Binary64).isFinite = true := by decide +kernel
  have hsmall : ¬ (4503599627370496 : Binary64) ≤ abs (-2.5) := by decide +kernel
  obtain ⟨hgreatest, hagain, hfits⟩ := (floor_greatest (-2.5)).1 hfinite
  exact ⟨hfinite, hsmall, rfl, ⟨hgreatest, hagain, hfits hsmall⟩, (floor_greatest (infinite true)).2 rfl⟩

end Numeric

end Quadra
