import Quadra.Proofs.Binary64.Grid

set_option autoImplicit false

/-!
# Rounding errors

A rational below the overflow bound is rounded to a finite number within half a unit of its last place,
and rounding keeps the order. The result of an operation on finite numbers is a rounding of the exact
result (`Rounds`) unless it overflows.
-/

namespace Quadra.Binary64

/-! ## The nearest number -/

theorem ofMagnitude_true (q : Rat) : ofMagnitude true q = -ofMagnitude false q := by
  have hpack : ∀ (m : Nat) (e : Int), pack true m e = -pack false m e := by
    intro m e
    rw [pack, pack]
    split <;> rfl
  rw [ofMagnitude, ofMagnitude]
  split
  · rfl
  · simp only [hpack]
    split <;> rfl

theorem overflowBound_pos : 0 < overflowBound :=
  sub_pos.mpr (zpow_lt_zpow_right₀ (by norm_num) (by norm_num))

/-- A magnitude is rounded to a finite number exactly when it is below the overflow bound, and then to
its grid value. -/
theorem ofMagnitude_spec (negative : Bool) {q : Rat} (hq : 0 ≤ q) :
    ((ofMagnitude negative q).isFinite = true ↔ q < overflowBound) ∧
      (q < overflowBound → |(ofMagnitude negative q).value| = gridValue q ∧
        (ofMagnitude negative q).isNegative = negative) := by
  rcases hq.eq_or_lt with rfl | hpos
  · rw [ofMagnitude, if_pos le_rfl, value_zero, gridValue_zero, abs_zero]
    exact ⟨iff_of_true rfl overflowBound_pos, fun _ => ⟨rfl, rfl⟩⟩
  · obtain ⟨hfinite, hvalue⟩ := isFinite_ofMagnitude negative hpos
    rw [gridValue_lt_iff hpos] at hfinite
    exact ⟨hfinite, fun h => hvalue (hfinite.mpr h)⟩

theorem value_ofMagnitude_false {q : Rat} (hq : 0 ≤ q) (h : q < overflowBound) :
    (ofMagnitude false q).value = gridValue q := by
  obtain ⟨habs, hsign⟩ := (ofMagnitude_spec false hq).2 h
  rwa [abs_of_nonneg (value_nonneg_of_isNegative_eq_false hsign)] at habs

/-- Rounding is symmetric about zero. -/
theorem value_nearest_neg (q : Rat) : (nearest (-q)).value = -(nearest q).value := by
  rcases lt_trichotomy q 0 with hneg | rfl | hpos
  · rw [nearest, if_neg (by linarith), nearest, if_pos hneg, ofMagnitude_true]
    exact (neg_eq_iff_eq_neg.mpr (value_neg _)).symm
  · rw [neg_zero, nearest_zero, value_zero, neg_zero]
  · rw [nearest, if_pos (by linarith), Rat.neg_neg, nearest, if_neg (by linarith), ofMagnitude_true]
    exact value_neg _

theorem value_nearest_of_nonneg {q : Rat} (hq : 0 ≤ q) (h : q < overflowBound) :
    (nearest q).value = gridValue q := by
  rw [nearest, if_neg (not_lt.mpr hq), value_ofMagnitude_false hq h]

/-- A rational is rounded to a finite number exactly when its magnitude is below the overflow bound. -/
theorem isFinite_nearest_iff (q : Rat) : (nearest q).isFinite = true ↔ |q| < overflowBound := by
  rw [nearest]
  split
  · rename_i hneg
    rw [abs_of_neg hneg]
    exact (ofMagnitude_spec true (by linarith)).1
  · rename_i hnonneg
    rw [abs_of_nonneg (not_lt.mp hnonneg)]
    exact (ofMagnitude_spec false (not_lt.mp hnonneg)).1

/-- The nearest number is off by at most one part in `2 ^ 53`, or half the least positive number. -/
theorem abs_value_nearest_sub_le {q : Rat} (h : |q| < overflowBound) :
    |(nearest q).value - q| ≤ |q| / 2 ^ (53 : Int) + 1 / 2 ^ (1075 : Int) := by
  have hlast : (0 : Rat) ≤ 1 / 2 ^ (1075 : Int) := div_nonneg zero_le_one (two_zpow_pos 1075).le
  rcases lt_trichotomy q 0 with hneg | rfl | hpos
  · have hvalue := value_nearest_neg (-q)
    rw [Rat.neg_neg] at hvalue
    rw [abs_of_neg hneg] at h ⊢
    rw [hvalue, value_nearest_of_nonneg (by linarith) h, ← abs_neg, neg_sub, sub_neg_eq_add, add_comm,
      ← sub_neg_eq_add]
    exact abs_gridValue_sub_le (by linarith)
  · rw [nearest_zero, value_zero, sub_zero, abs_zero, zero_div, zero_add]
    exact hlast
  · rw [abs_of_pos hpos] at h ⊢
    rw [value_nearest_of_nonneg hpos.le h]
    exact abs_gridValue_sub_le hpos

theorem value_nearest_mono_of_nonneg {q r : Rat} (hq : 0 ≤ q) (h : q ≤ r) (hr : r < overflowBound) :
    (nearest q).value ≤ (nearest r).value := by
  rw [value_nearest_of_nonneg hq (lt_of_le_of_lt h hr), value_nearest_of_nonneg (le_trans hq h) hr]
  rcases hq.eq_or_lt with rfl | hpos
  · rw [gridValue_zero]
    exact gridValue_nonneg h
  · exact gridValue_mono hpos h

/-- Rounding keeps the order. -/
theorem value_nearest_mono {q r : Rat} (h : q ≤ r) (hq : |q| < overflowBound)
    (hr : |r| < overflowBound) : (nearest q).value ≤ (nearest r).value := by
  have hq' := abs_lt.mp hq
  have hr' := abs_lt.mp hr
  rcases le_total 0 q with hq₀ | hq₀
  · exact value_nearest_mono_of_nonneg hq₀ h hr'.2
  · rcases le_total 0 r with hr₀ | hr₀
    · -- zero lies between them
      have hlow := value_nearest_mono_of_nonneg le_rfl (neg_nonneg.mpr hq₀) (by linarith)
      have hhigh := value_nearest_mono_of_nonneg le_rfl hr₀ hr'.2
      rw [nearest_zero, value_zero] at hlow hhigh
      rw [value_nearest_neg] at hlow
      linarith
    · have hflip := value_nearest_mono_of_nonneg (neg_nonneg.mpr hr₀) (neg_le_neg h) (by linarith)
      rw [value_nearest_neg, value_nearest_neg] at hflip
      linarith

/-- On a positive rational of the binade of `e`, rounding goes to the nearest multiple of `2 ^ e`. -/
theorem value_nearest_of_binade {q : Rat} {e : Int} (hlow : (2 : Rat) ^ (e + 52) ≤ q)
    (hhigh : q < 2 ^ (e + 53)) (he : -1074 ≤ e) (hq : q < overflowBound) :
    (nearest q).value = nearestInteger (q / 2 ^ e) * 2 ^ e := by
  have hpos : 0 < q := lt_of_lt_of_le (two_zpow_pos _) hlow
  rw [value_nearest_of_nonneg hpos.le hq, gridValue, gridMantissa,
    gridExponent_of_binade hlow hhigh he]

/-- A multiple of the grid of a binade is a number. -/
theorem exists_value_of_binade {n e : Int} (hlow : (2 : Rat) ^ (e + 52) ≤ n * 2 ^ e)
    (hhigh : (n : Rat) * 2 ^ e < 2 ^ (e + 53)) (he : -1074 ≤ e)
    (hrange : (n : Rat) * 2 ^ e < overflowBound) :
    ∃ x : Binary64, x.isFinite = true ∧ x.value = n * 2 ^ e := by
  have hpos : (0 : Rat) < n * 2 ^ e := lt_of_lt_of_le (two_zpow_pos _) hlow
  refine ⟨nearest (n * 2 ^ e), ?_, ?_⟩
  · rw [isFinite_nearest_iff, abs_of_pos hpos]
    exact hrange
  · rw [value_nearest_of_binade hlow hhigh he hrange, mul_div_cancel_right₀ _ (two_zpow_pos e).ne',
      nearestInteger_intCast]

/-- The numbers of a binade are multiples of its grid. -/
theorem exists_eq_of_binade {x : Binary64} (hx : x.isFinite = true) {e : Int}
    (hlow : (2 : Rat) ^ (e + 52) ≤ x.value) (hhigh : x.value < 2 ^ (e + 53)) (he : -1074 ≤ e) :
    ∃ n : Int, x.value = n * 2 ^ e := by
  have hpos : 0 < x.value := lt_of_lt_of_le (two_zpow_pos _) hlow
  have hrange : |x.value| < overflowBound := by
    rw [← isFinite_nearest_iff, nearest_value hx hpos.ne']
    exact hx
  rw [abs_of_pos hpos] at hrange
  have hnearest := value_nearest_of_binade hlow hhigh he hrange
  rw [nearest_value hx hpos.ne'] at hnearest
  exact ⟨_, hnearest⟩

/-! ## Results of operations -/

theorem abs_value_lt_overflowBound {x : Binary64} (hx : x.isFinite = true) :
    |x.value| < overflowBound := by
  by_cases hzero : x.value = 0
  · rw [hzero, abs_zero]
    exact overflowBound_pos
  · rw [← isFinite_nearest_iff, nearest_value hx hzero]
    exact hx

/-- The number `x` is the finite number to which the rational `q` is rounded, up to the sign of a
zero. -/
structure Rounds (x : Binary64) (q : Rat) : Prop where
  inRange : |q| < overflowBound
  isFinite : x.isFinite = true
  value_eq : x.value = (nearest q).value

namespace Rounds

variable {x : Binary64} {q : Rat}

theorem abs_sub_le (h : Rounds x q) :
    |x.value - q| ≤ |q| / 2 ^ (53 : Int) + 1 / 2 ^ (1075 : Int) :=
  h.value_eq ▸ abs_value_nearest_sub_le h.inRange

/-- The error as a bound with numerals. -/
theorem error_le (h : Rounds x q) :
    |x.value - q| ≤ |q| / 9007199254740992 + 1 / 1267650600228229401496703205376 := by
  have hlast : (1 : Rat) / 2 ^ (1075 : Int) ≤ 1 / 2 ^ (100 : Int) :=
    one_div_le_one_div_of_le (two_zpow_pos 100) (two_zpow_mono (by norm_num))
  have herror := h.abs_sub_le
  rw [show (2 : Rat) ^ (53 : Int) = 9007199254740992 by norm_num] at herror
  rw [show (2 : Rat) ^ (100 : Int) = 1267650600228229401496703205376 by norm_num] at hlast
  exact le_trans herror (add_le_add_right hlast _)

/-- The error of a result that is not negative, as bounds. -/
theorem bounds_of_nonneg (h : Rounds x q) (hq : 0 ≤ q) :
    q - q / 9007199254740992 - 1 / 1267650600228229401496703205376 ≤ x.value ∧
      x.value ≤ q + q / 9007199254740992 + 1 / 1267650600228229401496703205376 := by
  have herror := h.error_le
  rw [abs_of_nonneg hq] at herror
  obtain ⟨hlow, hhigh⟩ := abs_le.mp herror
  constructor <;> linarith

/-- A rounding does not pass a number. -/
theorem le_of_le (h : Rounds x q) {y : Binary64} (hy : y.isFinite = true) (hle : q ≤ y.value) :
    x.value ≤ y.value := by
  have hmono := value_nearest_mono hle h.inRange (abs_value_lt_overflowBound hy)
  rwa [← h.value_eq, (value_nearest ⟨y, hy, rfl⟩).2] at hmono

theorem ge_of_ge (h : Rounds x q) {y : Binary64} (hy : y.isFinite = true) (hge : y.value ≤ q) :
    y.value ≤ x.value := by
  have hmono := value_nearest_mono hge (abs_value_lt_overflowBound hy) h.inRange
  rwa [← h.value_eq, (value_nearest ⟨y, hy, rfl⟩).2] at hmono

theorem nonneg (h : Rounds x q) (hq : 0 ≤ q) : 0 ≤ x.value := by
  have hge := h.ge_of_ge (y := zero false) rfl (by rwa [value_zero])
  rwa [value_zero] at hge

/-- The value of a number is not changed. -/
theorem value_eq_of_eq (h : Rounds x q) {y : Binary64} (hy : y.isFinite = true) (heq : y.value = q) :
    x.value = q :=
  h.value_eq.trans (value_nearest ⟨y, hy, heq⟩).2

/-- Above the subnormal numbers the error is at most one part in `2 ^ 52`. -/
theorem relative (h : Rounds x q) (hq : 1 / 2 ^ (1022 : Int) ≤ |q|) :
    |x.value - q| ≤ |q| / 2 ^ (52 : Int) := by
  have hlast : (1 : Rat) / 2 ^ (1075 : Int) ≤ |q| / 2 ^ (53 : Int) := by
    calc (1 : Rat) / 2 ^ (1075 : Int) = 1 / 2 ^ (1022 : Int) / 2 ^ (53 : Int) := by
          rw [div_div, ← two_zpow_add]
          norm_num
      _ ≤ |q| / 2 ^ (53 : Int) := div_le_div_of_nonneg_right hq (two_zpow_pos 53).le
  have htwice : |q| / 2 ^ (53 : Int) + |q| / 2 ^ (53 : Int) = |q| / 2 ^ (52 : Int) := by
    norm_num
    ring
  linarith [h.abs_sub_le]

/-- The error of a positive result, as bounds. -/
theorem bounds (h : Rounds x q) (hq : 1 / 2 ^ (1022 : Int) ≤ q) :
    q * (1 - 1 / 4503599627370496) ≤ x.value ∧ x.value ≤ q * (1 + 1 / 4503599627370496) := by
  have hpos : 0 < q := lt_of_lt_of_le (div_pos one_pos (two_zpow_pos 1022)) hq
  have hrelative := h.relative (by rwa [abs_of_pos hpos])
  rw [abs_of_pos hpos, show (2 : Rat) ^ (52 : Int) = 4503599627370496 by norm_num, abs_le]
    at hrelative
  constructor <;> linarith

end Rounds

/-- What is at most `2 ^ 53` is far below the overflow bound. -/
theorem lt_overflowBound_of_moderate {q : Rat} (h : q ≤ 9007199254740992) : q < overflowBound := by
  have htop : (2 : Rat) ^ (1024 : Int) = 2 * 2 ^ (1023 : Int) := two_zpow_add 1 1023
  have hhalf : (2 : Rat) ^ (970 : Int) < 2 ^ (1023 : Int) :=
    zpow_lt_zpow_right₀ (by norm_num) (by norm_num)
  calc q ≤ 9007199254740992 := h
    _ = 2 ^ (53 : Int) := by norm_num
    _ ≤ 2 ^ (1023 : Int) := two_zpow_mono (by norm_num)
    _ = 2 * 2 ^ (1023 : Int) - 2 ^ (1023 : Int) := by ring
    _ < overflowBound := by
        rw [overflowBound, htop]
        exact sub_lt_sub_left hhalf _

/-- What is at least `2 ^ (-100)` is far above the subnormal numbers. -/
theorem normal_of_moderate {q : Rat} (h : 1 / 1267650600228229401496703205376 ≤ q) :
    1 / 2 ^ (1022 : Int) ≤ q := by
  refine le_trans ?_ h
  rw [show (1267650600228229401496703205376 : Rat) = 2 ^ (100 : Int) by norm_num]
  exact one_div_le_one_div_of_le (two_zpow_pos 100) (two_zpow_mono (by norm_num))

/-- The integers up to `2 ^ 53` are numbers. -/
theorem value_ofInt {n : Int} (hn : |n| ≤ 9007199254740992) :
    (ofInt n).isFinite = true ∧ (ofInt n).value = n :=
  value_nearest (exists_value_eq_intCast hn)

theorem isFinite_two : (2 : Binary64).isFinite = true := (value_ofInt (n := 2) (by norm_num)).1

theorem value_two : (2 : Binary64).value = 2 := (value_ofInt (n := 2) (by norm_num)).2

theorem isFinite_four : (4 : Binary64).isFinite = true := (value_ofInt (n := 4) (by norm_num)).1

theorem value_four : (4 : Binary64).value = 4 := (value_ofInt (n := 4) (by norm_num)).2

theorem rounds_nearest {q : Rat} (h : |q| < overflowBound) : Rounds (nearest q) q :=
  ⟨h, (isFinite_nearest_iff q).mpr h, rfl⟩

theorem rounds_ofMagnitude (negative : Bool) {q : Rat} (hsign : q ≠ 0 → negative = decide (q < 0))
    (h : |q| < overflowBound) : Rounds (ofMagnitude negative |q|) q := by
  have hfinite := (ofMagnitude_spec negative (abs_nonneg q)).1.mpr h
  refine ⟨h, hfinite, ?_⟩
  rcases lt_trichotomy q 0 with hneg | rfl | hpos
  · rw [hsign hneg.ne, decide_eq_true hneg, nearest, if_pos hneg, abs_of_neg hneg]
  · rw [abs_zero, nearest_zero, ofMagnitude, if_pos le_rfl, value_zero, value_zero]
  · rw [hsign hpos.ne', decide_eq_false (not_lt.mpr hpos.le), nearest, if_neg (not_lt.mpr hpos.le),
      abs_of_pos hpos]

/-- The sign of a number other than zero is that of its value. -/
theorem isNegative_eq_decide {x : Binary64} (hne : x.value ≠ 0) : x.isNegative = decide (x.value < 0) := by
  cases hs : x.isNegative with
  | false => exact (decide_eq_false (not_lt.mpr (value_nonneg_of_isNegative_eq_false hs))).symm
  | true => exact (decide_eq_true (lt_of_le_of_ne (value_nonpos_of_isNegative hs) hne)).symm

section

variable {x y : Binary64} (hx : x.isFinite = true) (hy : y.isFinite = true)

include hx hy

theorem isFinite_add_iff : (x + y).isFinite = true ↔ |x.value + y.value| < overflowBound := by
  rw [add_of_isFinite hx hy]
  split
  · rename_i hzero
    rw [hzero, abs_zero]
    exact iff_of_true rfl overflowBound_pos
  · exact isFinite_nearest_iff _

theorem rounds_add (h : |x.value + y.value| < overflowBound) :
    Rounds (x + y) (x.value + y.value) := by
  refine ⟨h, (isFinite_add_iff hx hy).mpr h, ?_⟩
  rw [add_of_isFinite hx hy]
  split
  · rename_i hzero
    rw [hzero, nearest_zero, value_zero, value_zero]
  · rfl

theorem isFinite_sub_iff : (x - y).isFinite = true ↔ |x.value - y.value| < overflowBound := by
  have h := isFinite_add_iff hx ((isFinite_neg y).trans hy)
  rwa [value_neg, ← sub_eq_add_neg] at h

theorem rounds_sub (h : |x.value - y.value| < overflowBound) :
    Rounds (x - y) (x.value - y.value) := by
  have hneg := value_neg y
  have hsum : x.value + (neg y).value = x.value - y.value := by rw [hneg, sub_eq_add_neg]
  rw [← hsum] at h ⊢
  exact rounds_add hx ((isFinite_neg y).trans hy) h

theorem isFinite_mul_iff : (x * y).isFinite = true ↔ |x.value * y.value| < overflowBound := by
  rw [mul_of_isFinite hx hy, ratAbs_eq]
  exact (ofMagnitude_spec _ (abs_nonneg _)).1

omit hx hy in
/-- The sign of two numbers is that of their product and of their quotient. -/
theorem bne_isNegative (hx₀ : x.value ≠ 0) (hy₀ : y.value ≠ 0) :
    (x.isNegative != y.isNegative) = decide (x.value * y.value < 0) ∧
      (x.isNegative != y.isNegative) = decide (x.value / y.value < 0) := by
  rw [isNegative_eq_decide hx₀, isNegative_eq_decide hy₀]
  rcases lt_or_gt_of_ne hx₀ with hxs | hxs <;> rcases lt_or_gt_of_ne hy₀ with hys | hys <;>
    simp [hxs, hys, mul_neg_iff, div_neg_iff, not_lt_of_gt]

theorem rounds_mul (h : |x.value * y.value| < overflowBound) :
    Rounds (x * y) (x.value * y.value) := by
  rw [mul_of_isFinite hx hy, ratAbs_eq]
  refine rounds_ofMagnitude _ (fun hne => ?_) h
  obtain ⟨hx₀, hy₀⟩ := mul_ne_zero_iff.mp hne
  exact (bne_isNegative hx₀ hy₀).1

theorem div_of_isFinite (hy₀ : y.value ≠ 0) :
    x / y = ofMagnitude (x.isNegative != y.isNegative) |x.value / y.value| := by
  have hzero : y.isZero = false := by
    rw [← Bool.not_eq_true, isZero_iff hy]
    exact hy₀
  rw [← ratAbs_eq]
  obtain ⟨s, m, e, h, rfl⟩ := eq_finite_of_isFinite hx
  obtain ⟨s', m', e', h', rfl⟩ := eq_finite_of_isFinite hy
  show div _ _ = _
  simp only [div, hzero]
  rfl

theorem rounds_div (hy₀ : y.value ≠ 0) (h : |x.value / y.value| < overflowBound) :
    Rounds (x / y) (x.value / y.value) := by
  rw [div_of_isFinite hx hy hy₀]
  refine rounds_ofMagnitude _ (fun hne => ?_) h
  exact (bne_isNegative (fun hx₀ => hne (by rw [hx₀, zero_div])) hy₀).2

end

/-- Half a number never overflows. -/
theorem rounds_half {x : Binary64} (hx : x.isFinite = true) : Rounds (x / 2) (x.value / 2) := by
  have hrounds := rounds_div hx isFinite_two (by rw [value_two]; norm_num) (by
    rw [value_two, abs_div, abs_two]
    exact lt_of_le_of_lt (half_le_self (abs_nonneg _)) (abs_value_lt_overflowBound hx))
  rwa [value_two] at hrounds

/-! ## Exact results -/

theorem abs_intCast_lt_overflowBound {n : Int} (hn : |n| ≤ 9007199254740992) :
    |(n : Rat)| < overflowBound := by
  refine lt_overflowBound_of_moderate ?_
  exact_mod_cast hn

section

variable {x y : Binary64} {n : Int} (hx : x.isFinite = true) (hy : y.isFinite = true)
  (hn : |n| ≤ 9007199254740992)

include hx hy hn

/-- A product that is an integer up to `2 ^ 53` is exact. -/
theorem value_mul_of_integer (h : x.value * y.value = n) :
    (x * y).isFinite = true ∧ (x * y).value = n := by
  have hrounds := rounds_mul hx hy (by rw [h]; exact abs_intCast_lt_overflowBound hn)
  obtain ⟨hfinite, hvalue⟩ := value_ofInt hn
  exact ⟨hrounds.isFinite, (hrounds.value_eq_of_eq hfinite (hvalue.trans h.symm)).trans h⟩

/-- So is a sum. -/
theorem value_add_of_integer (h : x.value + y.value = n) :
    (x + y).isFinite = true ∧ (x + y).value = n := by
  have hrounds := rounds_add hx hy (by rw [h]; exact abs_intCast_lt_overflowBound hn)
  obtain ⟨hfinite, hvalue⟩ := value_ofInt hn
  exact ⟨hrounds.isFinite, (hrounds.value_eq_of_eq hfinite (hvalue.trans h.symm)).trans h⟩

/-- So is a difference. -/
theorem value_sub_of_integer (h : x.value - y.value = n) :
    (x - y).isFinite = true ∧ (x - y).value = n := by
  have hrounds := rounds_sub hx hy (by rw [h]; exact abs_intCast_lt_overflowBound hn)
  obtain ⟨hfinite, hvalue⟩ := value_ofInt hn
  exact ⟨hrounds.isFinite, (hrounds.value_eq_of_eq hfinite (hvalue.trans h.symm)).trans h⟩

end

end Quadra.Binary64
