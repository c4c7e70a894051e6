import Quadra.Proofs.Numeric.Floor

set_option autoImplicit false

/-!
# Whole numbers

Sums and products of nonnegative integers are integers again, at every magnitude, or they overflow to
infinity and stay there. What a number exceeds its floor by has a reciprocal that is a number, except
where it is at most `2 ^ (-1024)`.
-/

namespace Quadra.Binary64

/-! ## Sums and products that are not negative -/

section

variable {x y : Binary64} (hx : x.isFinite = true) (hy : y.isFinite = true) (hx₀ : 0 ≤ x.value)
  (hy₀ : 0 ≤ y.value)

include hx hy hx₀ hy₀

/-- A sum is rounded, or positive infinity. -/
theorem add_cases : x + y = infinite false ∨ Rounds (x + y) (x.value + y.value) := by
  by_cases h : |x.value + y.value| < overflowBound
  · exact .inr (rounds_add hx hy h)
  · left
    have hpos : 0 < x.value + y.value := by
      rw [abs_of_nonneg (add_nonneg hx₀ hy₀)] at h
      exact lt_of_lt_of_le overflowBound_pos (not_lt.mp h)
    have hinfinite : (x + y).isFinite = false := by
      rw [← Bool.not_eq_true, isFinite_add_iff hx hy]
      exact h
    rw [add_of_isFinite hx hy, if_neg hpos.ne', nearest, if_neg hpos.not_gt] at hinfinite ⊢
    exact eq_infinite_of_ofMagnitude hinfinite

/-- So is a product. -/
theorem mul_cases : x * y = infinite false ∨ Rounds (x * y) (x.value * y.value) := by
  by_cases h : |x.value * y.value| < overflowBound
  · exact .inr (rounds_mul hx hy h)
  · left
    have hpos : 0 < x.value * y.value := by
      rw [abs_of_nonneg (mul_nonneg hx₀ hy₀)] at h
      exact lt_of_lt_of_le overflowBound_pos (not_lt.mp h)
    have hinfinite : (x * y).isFinite = false := by
      rw [← Bool.not_eq_true, isFinite_mul_iff hx hy]
      exact h
    obtain ⟨hxne, hyne⟩ := mul_ne_zero_iff.mp hpos.ne'
    rw [mul_of_isFinite hx hy, (bne_isNegative hxne hyne).1, decide_eq_false hpos.not_gt]
      at hinfinite ⊢
    exact eq_infinite_of_ofMagnitude hinfinite

end

/-- So is a quotient. -/
theorem div_cases {x y : Binary64} (hx : x.isFinite = true) (hy : y.isFinite = true) (hx₀ : 0 ≤ x.value)
    (hy₀ : 0 < y.value) : x / y = infinite false ∨ Rounds (x / y) (x.value / y.value) := by
  by_cases h : |x.value / y.value| < overflowBound
  · exact .inr (rounds_div hx hy hy₀.ne' h)
  · left
    have hpos : 0 < x.value / y.value := by
      rw [abs_of_nonneg (div_nonneg hx₀ hy₀.le)] at h
      exact lt_of_lt_of_le overflowBound_pos (not_lt.mp h)
    have hxne : x.value ≠ 0 := (div_ne_zero_iff.mp hpos.ne').1
    have hsign : (x.isNegative != y.isNegative) = false := by
      rw [(bne_isNegative hxne hy₀.ne').2, decide_eq_false hpos.not_gt]
    rw [div_of_isFinite hx hy hy₀.ne', hsign]
    apply eq_infinite_of_ofMagnitude
    rw [← Bool.not_eq_true, (ofMagnitude_spec false (abs_nonneg _)).1]
    exact h

/-! ## Whole numbers -/

/-- The number is positive infinity, or an integer of at least `l`. -/
inductive Whole (l : Nat) : Binary64 → Prop
  | infinite : Whole l (.infinite false)
  | integer {x : Binary64} (hx : x.isFinite = true) (n : Nat) (hn : x.value = n) (hle : l ≤ n) : Whole l x

/-- An integer is rounded to an integer. -/
theorem whole_of_rounds {x : Binary64} {l n : Nat} (h : Rounds x n) (hle : l ≤ n)
    (hl : l ≤ 9007199254740992) : Whole l x := by
  rcases Nat.le_total n 9007199254740992 with hsmall | hlarge
  · obtain ⟨hfinite, hvalue⟩ := value_ofInt (n := n) (by rw [Nat.abs_cast]; omega)
    rw [Int.cast_natCast] at hvalue
    exact .integer h.isFinite n (h.value_eq_of_eq hfinite hvalue) hle
  · -- what is rounded from `2 ^ 53` on is not below it, and so is an integer anyhow
    obtain ⟨hfinite, hvalue⟩ := value_ofInt (n := 9007199254740992) (by norm_num)
    have hge := h.ge_of_ge hfinite (by rw [hvalue]; exact_mod_cast hlarge)
    have hlarge' : 4503599627370496 ≤ |x.value| := by
      refine le_trans ?_ (le_trans hge (le_abs_self _))
      rw [hvalue]
      norm_num
    obtain ⟨m, hm⟩ := exists_eq_intCast_of_large h.isFinite hlarge'
    rw [hvalue, hm] at hge
    have hm₁ : 9007199254740992 ≤ m := Int.cast_le.mp hge
    refine .integer h.isFinite m.toNat ?_ (by omega)
    rw [hm]
    exact_mod_cast (Int.toNat_of_nonneg (by omega : 0 ≤ m)).symm

namespace Whole

variable {l : Nat} {x y : Binary64}

theorem one : Whole 1 1 := .integer isFinite_ofNat_one 1 (by rw [value_one]; rfl) le_rfl

theorem zero : Whole 0 0 := .integer isFinite_ofNat_zero 0 (by rw [value_ofNat_zero]; rfl) le_rfl

theorem mono {l' : Nat} (h : Whole l x) (hle : l' ≤ l) : Whole l' x := by
  cases h with
  | infinite => exact .infinite
  | integer hx n hn hln => exact .integer hx n hn (le_trans hle hln)

/-- A sum of integers is whole. -/
theorem add_integer (hx : x.isFinite = true) {n : Nat} (hn : x.value = n) (hy : y.isFinite = true)
    {m : Nat} (hm : y.value = m) (hle : l ≤ n + m) (hl : l ≤ 9007199254740992) : Whole l (x + y) := by
  rcases add_cases hx hy (by rw [hn]; exact Nat.cast_nonneg n)
    (by rw [hm]; exact Nat.cast_nonneg m) with hsum | hsum
  · rw [hsum]
    exact .infinite
  · rw [hn, hm, ← Nat.cast_add] at hsum
    exact whole_of_rounds hsum hle hl

/-- A sum of whole numbers is whole. -/
theorem add (h : Whole l x) (h' : Whole 0 y) (hl : l ≤ 9007199254740992) : Whole l (x + y) := by
  cases h with
  | infinite =>
      cases h' with
      | infinite => exact .infinite
      | integer hy =>
          obtain ⟨_, _, _, _, rfl⟩ := eq_finite_of_isFinite hy
          exact .infinite
  | integer hx n hn hle =>
      cases h' with
      | infinite =>
          obtain ⟨_, _, _, _, rfl⟩ := eq_finite_of_isFinite hx
          exact .infinite
      | integer hy m hm => exact add_integer hx hn hy hm (le_trans hle (Nat.le_add_right n m)) hl

/-- A product of integers is whole. -/
theorem mul_integer (hx : x.isFinite = true) {n : Nat} (hn : x.value = n) (hy : y.isFinite = true)
    {m : Nat} (hm : y.value = m) (hle : l ≤ n * m) (hl : l ≤ 9007199254740992) : Whole l (x * y) := by
  rcases mul_cases hx hy (by rw [hn]; exact Nat.cast_nonneg n)
    (by rw [hm]; exact Nat.cast_nonneg m) with hproduct | hproduct
  · rw [hproduct]
    exact .infinite
  · rw [hn, hm, ← Nat.cast_mul] at hproduct
    exact whole_of_rounds hproduct hle hl

/-- A positive integer times a whole number is whole. -/
theorem mul (hx : x.isFinite = true) {n : Nat} (hn : x.value = n) (hn₁ : 1 ≤ n) (h : Whole l y)
    (hl : l ≤ 9007199254740992) : Whole l (x * y) := by
  cases h with
  | infinite =>
      have hpos : 0 < x.value := by
        rw [hn]
        exact_mod_cast hn₁
      have hzero : x.isZero = false := by
        rw [← Bool.not_eq_true, isZero_iff hx]
        exact hpos.ne'
      have hsign : x.isNegative = false := by
        rw [isNegative_eq_decide hpos.ne', decide_eq_false hpos.not_gt]
      rw [mul_swap, infinite_mul _ hx, hzero, hsign]
      exact .infinite
  | integer hy m hm hle =>
      exact mul_integer hx hn hy hm (le_trans hle (Nat.le_mul_of_pos_left m hn₁)) hl

end Whole

/-! ## Integers up to `2 ^ 53`

A number keeps track of an integer through sums and products: it is the integer, or both are too large to
tell whether it is. -/

/-- The number is the integer `n`, or both are at least `2 ^ 53`. -/
inductive Tracks (n : Nat) : Binary64 → Prop
  | exact {x : Binary64} (hx : x.isFinite = true) (hn : x.value = n) : Tracks n x
  | large {x : Binary64} (hn : 9007199254740992 ≤ n) (h : Whole 9007199254740992 x) : Tracks n x

/-- An integer below `2 ^ 53`, as numbers are compared. -/
theorem natCast_lt_of_lt {x : Binary64} (hx : x.isFinite = true) {n : Nat} (hn : x.value = n)
    (hlt : x < 9007199254740992) : n < 9007199254740992 := by
  obtain ⟨hbound, hvalue⟩ := value_ofInt (n := 9007199254740992) (by norm_num)
  have hvalues := (lt_iff_value_lt hx hbound).mp hlt
  rw [hvalue, hn] at hvalues
  exact_mod_cast hvalues

namespace Tracks

variable {n m : Nat} {x y : Binary64}

theorem one : Tracks 1 1 := .exact isFinite_ofNat_one (by rw [value_one]; rfl)

theorem zero : Tracks 0 0 := .exact isFinite_ofNat_zero (by rw [value_ofNat_zero]; rfl)

theorem whole {l : Nat} (h : Tracks n x) (hle : l ≤ n) (hl : l ≤ 9007199254740992) : Whole l x := by
  cases h with
  | exact hx hn => exact .integer hx n hn hle
  | large hn hwhole => exact hwhole.mono hl

theorem add (h : Tracks n x) (h' : Tracks m y) : Tracks (n + m) (x + y) := by
  cases h with
  | exact hx hn =>
      cases h' with
      | exact hy hm =>
          by_cases hle : n + m ≤ 9007199254740992
          · have hsum := value_add_of_integer hx hy (n := (n + m : Nat))
              (by rw [Nat.abs_cast]; exact_mod_cast hle) (by rw [hn, hm]; push_cast; rfl)
            exact .exact hsum.1 (by exact_mod_cast hsum.2)
          · exact .large (not_le.mp hle).le (.add_integer hx hn hy hm (not_le.mp hle).le le_rfl)
      | large hm hwhole =>
          rw [add_swap]
          exact .large (le_trans hm (Nat.le_add_left m n))
            (hwhole.add (.integer hx n hn (Nat.zero_le n)) le_rfl)
  | large hn hwhole =>
      exact .large (le_trans hn (Nat.le_add_right n m))
        (hwhole.add (h'.whole (Nat.zero_le m) (Nat.zero_le _)) le_rfl)

/-- The product of two integers. -/
theorem mul_integer (hx : x.isFinite = true) (hn : x.value = n) (hy : y.isFinite = true)
    (hm : y.value = m) : Tracks (n * m) (x * y) := by
  by_cases hle : n * m ≤ 9007199254740992
  · have hproduct := value_mul_of_integer hx hy (n := (n * m : Nat))
      (by rw [Nat.abs_cast]; exact_mod_cast hle) (by rw [hn, hm]; push_cast; rfl)
    exact .exact hproduct.1 (by exact_mod_cast hproduct.2)
  · exact .large (not_le.mp hle).le (.mul_integer hx hn hy hm (not_le.mp hle).le le_rfl)

/-- The factor is positive since zero times infinity is no number. -/
theorem mul (hx : x.isFinite = true) (hn : x.value = n) (hn₁ : 1 ≤ n) (h : Tracks m y) :
    Tracks (n * m) (x * y) := by
  cases h with
  | exact hy hm => exact mul_integer hx hn hy hm
  | large hm hwhole =>
      exact .large (le_trans hm (Nat.le_mul_of_pos_left m hn₁)) (.mul hx hn hn₁ hwhole le_rfl)

/-- A small integer is tracked exactly. -/
theorem eq_of_lt (h : Tracks n x) (hlt : n < 9007199254740992) : x.isFinite = true ∧ x.value = n := by
  cases h with
  | exact hx hn => exact ⟨hx, hn⟩
  | large hn => exact absurd hlt (not_lt.mpr hn)

/-- A small number tracks a small integer. -/
theorem lt_of_lt (h : Tracks n x) (hlt : x < 9007199254740992) : n < 9007199254740992 := by
  cases h with
  | exact hx hn => exact natCast_lt_of_lt hx hn hlt
  | large _ hwhole =>
      -- no whole number from `2 ^ 53` on is below it
      cases hwhole with
      | infinite => exact absurd hlt (by decide +kernel)
      | integer hx k hk hle => exact absurd (natCast_lt_of_lt hx hk hlt) (not_lt.mpr hle)

end Tracks

/-! ## Reciprocals of fractional parts -/

/-- A number that is not negative is a multiple of the least positive one. -/
theorem exists_eq_mul_least {x : Binary64} (hx : x.isFinite = true) (hx₀ : 0 ≤ x.value) :
    ∃ n : Nat, x.value = n / 2 ^ (1074 : Int) := by
  obtain ⟨m, e, habs, -, he, -⟩ := exists_abs_value_eq hx
  rw [abs_of_nonneg hx₀] at habs
  obtain ⟨d, hd⟩ : ∃ d : Nat, e = (d : Int) - 1074 := ⟨(e + 1074).toNat, by omega⟩
  refine ⟨m * 2 ^ d, ?_⟩
  simp only [habs, hd, zpow_sub₀ (two_ne_zero' Rat), zpow_natCast, Nat.cast_mul, Nat.cast_pow,
    Nat.cast_ofNat, mul_div_assoc]

/-- The fractional part of a number of at least one is a multiple of `2 ^ (-52)`. -/
theorem fract_ge_of_one_le {x : Binary64} (hx : x.isFinite = true) (hone : 1 ≤ x.value)
    (hne : x.value - x.value.floor ≠ 0) : 1 / 4503599627370496 ≤ x.value - x.value.floor := by
  have hpow : (2 : Rat) ^ ((52 : Nat) : Int) = 4503599627370496 := by norm_num
  obtain ⟨n, hn⟩ := exists_mul_eq_intCast hx 52 (by rw [hpow]; linarith [le_abs_self x.value])
  rw [hpow] at hn
  have hnonneg : 0 ≤ x.value - x.value.floor := sub_nonneg.mpr (Rat.floor_le _)
  have hcast : ((n - x.value.floor * 4503599627370496 : Int) : Rat) =
      (x.value - x.value.floor) * 4503599627370496 := by
    rw [sub_mul, hn]
    push_cast
    rfl
  have hlt : (0 : Rat) < (x.value - x.value.floor) * 4503599627370496 :=
    mul_pos (lt_of_le_of_ne hnonneg hne.symm) (by norm_num)
  rw [← hcast] at hlt
  have hpos : 0 < n - x.value.floor * 4503599627370496 := Int.cast_pos.mp hlt
  have hone' : (1 : Rat) ≤ ((n - x.value.floor * 4503599627370496 : Int) : Rat) := by exact_mod_cast hpos
  rw [hcast] at hone'
  linarith

/-- The number next above `2 ^ (-1024)`. -/
theorem ge_next_of_gt {y : Binary64} (hy : y.isFinite = true) (hlow : 1 / 2 ^ (1024 : Int) < y.value) :
    1125899906842625 / 2 ^ (1074 : Int) ≤ y.value := by
  have hsplit : (2 : Rat) ^ (1074 : Int) = 1125899906842624 * 2 ^ (1024 : Int) := by
    rw [show (1074 : Int) = 50 + 1024 by norm_num, two_zpow_add]
    norm_num
  have hpos : 0 < y.value := lt_trans (one_div_pos.mpr (two_zpow_pos 1024)) hlow
  obtain ⟨n, hn⟩ := exists_eq_mul_least hy hpos.le
  have hlt : (1125899906842624 : Rat) < n := by
    rwa [hn, hsplit, ← div_div, div_lt_div_iff_of_pos_right (two_zpow_pos 1024),
      lt_div_iff₀ (by norm_num), one_mul] at hlow
  have hnext : 1125899906842624 + 1 ≤ n := by exact_mod_cast hlt
  rw [hn]
  exact div_le_div_of_nonneg_right (by exact_mod_cast hnext) (two_zpow_pos 1074).le

theorem one_div_lt_overflowBound {q : Rat} (h : 1125899906842625 / 2 ^ (1074 : Int) ≤ q) :
    1 / q < overflowBound := by
  have hunit := two_zpow_pos 970
  have htop : overflowBound = 18014398509481983 * 2 ^ (970 : Int) := by
    rw [overflowBound, show (1024 : Int) = 54 + 970 by norm_num, two_zpow_add]
    generalize (2 : Rat) ^ (970 : Int) = unit
    norm_num
    ring
  have hleast : (2 : Rat) ^ (1074 : Int) = 20282409603651670423947251286016 * 2 ^ (970 : Int) := by
    rw [show (1074 : Int) = 104 + 970 by norm_num, two_zpow_add]
    norm_num
  calc 1 / q ≤ 1 / (1125899906842625 / 2 ^ (1074 : Int)) :=
        one_div_le_one_div_of_le (by positivity) h
    _ = 20282409603651670423947251286016 / 1125899906842625 * 2 ^ (970 : Int) := by
        rw [one_div_div, hleast, mul_div_right_comm]
    _ < 18014398509481983 * 2 ^ (970 : Int) := mul_lt_mul_of_pos_right (by norm_num) hunit
    _ = overflowBound := htop.symm

/-- The reciprocal of a fraction above `2 ^ (-1024)` is a number of at least one. -/
theorem reciprocal_of_gt {y : Binary64} (hy : y.isFinite = true)
    (hlow : 1 / 2 ^ (1024 : Int) < y.value) (hlt : y.value < 1) :
    (1 / y).isFinite = true ∧ 1 ≤ (1 / y).value := by
  have hpos : 0 < y.value := lt_trans (one_div_pos.mpr (two_zpow_pos 1024)) hlow
  have hrounds := rounds_div isFinite_ofNat_one hy hpos.ne' (by
    rw [value_one, abs_of_pos (one_div_pos.mpr hpos)]
    exact one_div_lt_overflowBound (ge_next_of_gt hy hlow))
  have hge := hrounds.ge_of_ge isFinite_ofNat_one (by
    rw [value_one]
    exact one_le_one_div hpos hlt.le)
  rw [value_one] at hge
  exact ⟨hrounds.isFinite, hge⟩

/-- The reciprocal of a smaller positive number is infinite. -/
theorem reciprocal_of_le {y : Binary64} (hy : y.isFinite = true) (hpos : 0 < y.value)
    (hle : y.value ≤ 1 / 2 ^ (1024 : Int)) : 1 / y = infinite false := by
  refine (div_cases isFinite_ofNat_one hy (by rw [value_one]; exact zero_le_one) hpos).resolve_right ?_
  intro hrounds
  have hrange := hrounds.inRange
  rw [value_one, abs_of_pos (one_div_pos.mpr hpos)] at hrange
  have hlarge : overflowBound ≤ 1 / y.value := by
    calc overflowBound ≤ 2 ^ (1024 : Int) := sub_le_self _ (two_zpow_pos 970).le
      _ ≤ 1 / y.value := (le_one_div hpos (two_zpow_pos 1024)).mp hle
  exact absurd hrange (not_lt.mpr hlarge)

end Quadra.Binary64
