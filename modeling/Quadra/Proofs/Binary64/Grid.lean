import Quadra.Proofs.Binary64.Arithmetic

set_option autoImplicit false

/-!
# Rounding grids

The numbers around a positive rational are the multiples of a power of two, its grid. Its grid value is
the nearest of these multiples: at most half a unit away, with a mantissa of 53 bits, and greater for a
greater rational. It is the value of a finite number exactly when the rational is below the overflow
bound.
-/

namespace Quadra

/-! ## Nearest integers -/

/-- The nearest integer is at most one half away. -/
theorem abs_nearestInteger_sub_le (q : Rat) : |(nearestInteger q : Rat) - q| ≤ 1 / 2 := by
  have hbelow : (q.floor : Rat) ≤ q := Rat.floor_le q
  have habove : q < q.floor + 1 := by exact_mod_cast Rat.lt_floor_add_one q
  rw [abs_le, nearestInteger]
  split
  · constructor <;> linarith
  · split
    · push_cast
      constructor <;> linarith
    · split
      · constructor <;> linarith
      · push_cast
        constructor <;> linarith

theorem nearestInteger_mono {q r : Rat} (h : q ≤ r) : nearestInteger q ≤ nearestInteger r := by
  by_contra hlt
  have hstep : (nearestInteger r : Rat) + 1 ≤ nearestInteger q := by
    exact_mod_cast Int.add_one_le_of_lt (not_le.mp hlt)
  have hq := abs_le.mp (abs_nearestInteger_sub_le q)
  have hr := abs_le.mp (abs_nearestInteger_sub_le r)
  -- both are one half away from their nearest integers, so they are equal
  have heq : q = r := by linarith
  rw [heq] at hlt
  exact hlt le_rfl

/-- A rational less than one half above an integer does not go beyond it. -/
theorem nearestInteger_le {q : Rat} {n : Int} (h : q < n + 1 / 2) : nearestInteger q ≤ n := by
  have hq := abs_le.mp (abs_nearestInteger_sub_le q)
  have hlt : (nearestInteger q : Rat) < n + 1 := by linarith
  exact Int.lt_add_one_iff.mp (by exact_mod_cast hlt)

/-- An even integer may be taken out: it does not change which neighbour of a half is even. -/
theorem nearestInteger_even_add (n : Int) (q : Rat) :
    nearestInteger (2 * n + q) = 2 * n + nearestInteger q := by
  have hfloor : (2 * (n : Rat) + q).floor = 2 * n + q.floor := by
    have := Int.floor_intCast_add (2 * n) q
    push_cast at this
    exact this
  have hrest : 2 * (n : Rat) + q - ((2 * n + q.floor : Int) : Rat) = q - q.floor := by
    push_cast
    ring
  have hparity : (2 * n + q.floor) % 2 = q.floor % 2 := Int.mul_add_emod_self_left 2 n q.floor
  rw [nearestInteger, nearestInteger, hfloor, hrest, hparity]
  split
  · rfl
  · split
    · ring
    · split
      · rfl
      · ring

namespace Binary64

/-! ## Mantissas -/

/-- The least magnitude that is rounded to an infinity: halfway between the largest number and
`2 ^ 1024`. -/
def overflowBound : Rat := 2 ^ (1024 : Int) - 2 ^ (970 : Int)

/-- The magnitude that exact results are rounded from is the absolute value. -/
theorem ratAbs_eq (q : Rat) : q.abs = |q| := by
  rcases le_total 0 q with h | h
  · rw [Rat.abs_of_nonneg h, abs_of_nonneg h]
  · rw [Rat.abs_of_nonpos h, abs_of_nonpos h]

theorem two_zpow_pos (e : Int) : (0 : Rat) < 2 ^ e := by positivity

theorem two_zpow_mono {e f : Int} (h : e ≤ f) : (2 : Rat) ^ e ≤ 2 ^ f :=
  zpow_le_zpow_right₀ (by norm_num) h

theorem two_zpow_add (e f : Int) : (2 : Rat) ^ (e + f) = 2 ^ e * 2 ^ f :=
  zpow_add₀ (by norm_num) e f

/-- A positive rational lies within a factor two of its binary exponent. -/
theorem binaryExponent_bounds {q : Rat} (hq : 0 < q) :
    (2 : Rat) ^ binaryExponent q ≤ q ∧ q < 2 ^ (binaryExponent q + 1) := by
  rw [binaryExponent_eq_log hq]
  exact ⟨by exact_mod_cast Int.zpow_log_le_self (b := 2) (by norm_num) hq,
    by exact_mod_cast Int.lt_zpow_succ_log_self (b := 2) (by norm_num) q⟩

/-- The integer mantissa to which a positive rational is rounded on its grid. -/
def gridMantissa (q : Rat) : Int := nearestInteger (q / 2 ^ gridExponent q)

/-- The rational a positive rational is rounded to when the exponent has no upper limit. -/
def gridValue (q : Rat) : Rat := gridMantissa q * 2 ^ gridExponent q

/-- A rational lies on or above the first mantissa with 53 bits, unless its grid is the finest. -/
theorem gridExponent_cases (q : Rat) :
    gridExponent q = binaryExponent q - 52 ∨
      gridExponent q = -1074 ∧ binaryExponent q - 52 ≤ -1074 := by
  rw [gridExponent]
  omega

theorem gridMantissa_bounds {q : Rat} (hq : 0 < q) :
    0 ≤ gridMantissa q ∧ gridMantissa q ≤ 9007199254740992 ∧
      (4503599627370496 ≤ gridMantissa q ∨ gridExponent q = -1074) := by
  have hpow := two_zpow_pos (gridExponent q)
  obtain ⟨hlow, hhigh⟩ := binaryExponent_bounds hq
  have hnonneg : 0 ≤ gridMantissa q := by
    have h := nearestInteger_mono (div_nonneg hq.le hpow.le)
    rwa [show (0 : Rat) = ((0 : Int) : Rat) by norm_num, nearestInteger_intCast] at h
  have hupper : q / 2 ^ gridExponent q ≤ ((9007199254740992 : Int) : Rat) := by
    rw [div_le_iff₀ hpow]
    calc q ≤ 2 ^ (binaryExponent q + 1) := hhigh.le
      _ ≤ 2 ^ (53 + gridExponent q) := two_zpow_mono (by rw [gridExponent]; omega)
      _ = 2 ^ (53 : Int) * 2 ^ gridExponent q := two_zpow_add _ _
      _ = ((9007199254740992 : Int) : Rat) * 2 ^ gridExponent q := by norm_num
  have hmost := nearestInteger_mono hupper
  rw [nearestInteger_intCast] at hmost
  refine ⟨hnonneg, hmost, ?_⟩
  rcases gridExponent_cases q with he | ⟨he, -⟩
  · left
    have hlower : ((4503599627370496 : Int) : Rat) ≤ q / 2 ^ gridExponent q := by
      rw [le_div_iff₀ hpow]
      calc ((4503599627370496 : Int) : Rat) * 2 ^ gridExponent q
          = 2 ^ (52 : Int) * 2 ^ gridExponent q := by norm_num
        _ = 2 ^ binaryExponent q := by rw [← two_zpow_add, he]; congr 1; ring
        _ ≤ q := hlow
    have hleast := nearestInteger_mono hlower
    rwa [nearestInteger_intCast] at hleast
  · exact Or.inr he

/-- A rational is rounded to the fields of its mantissa and grid, or to those of the next power of two
when the mantissa has overflowed. -/
theorem ofMagnitude_eq_pack (negative : Bool) {q : Rat} (hq : 0 < q) :
    ∃ (m : Nat) (e : Int), ofMagnitude negative q = pack negative m e ∧
      (m : Rat) * 2 ^ e = gridValue q ∧ m < 9007199254740992 ∧ -1074 ≤ e ∧
      (4503599627370496 ≤ m ∨ e = -1074) := by
  obtain ⟨hnonneg, hmost, hleast⟩ := gridMantissa_bounds hq
  have hgrid : -1074 ≤ gridExponent q := le_max_left _ _
  have hcast : ((gridMantissa q).toNat : Rat) = gridMantissa q := by
    exact_mod_cast Int.toNat_of_nonneg hnonneg
  rw [ofMagnitude, if_neg (not_le.mpr hq)]
  simp only [← gridMantissa.eq_1]
  split
  · rename_i hfull
    refine ⟨4503599627370496, gridExponent q + 1, rfl, ?_, by omega, by omega, by omega⟩
    rw [gridValue, ← hcast, hfull, two_zpow_add]
    push_cast
    ring
  · rename_i hnotFull
    refine ⟨(gridMantissa q).toNat, gridExponent q, rfl, ?_, by omega, hgrid, by omega⟩
    rw [gridValue, hcast]

/-- The value of a result that has not overflowed, and when this is so. -/
theorem isFinite_ofMagnitude (negative : Bool) {q : Rat} (hq : 0 < q) :
    ((ofMagnitude negative q).isFinite = true ↔ gridValue q < 2 ^ (1024 : Int)) ∧
      ((ofMagnitude negative q).isFinite = true →
        |(ofMagnitude negative q).value| = gridValue q ∧
          (ofMagnitude negative q).isNegative = negative) := by
  obtain ⟨m, e, hpack, hvalue, hm, he, hfull⟩ := ofMagnitude_eq_pack negative hq
  rw [hpack, pack, ← hvalue]
  split
  · rename_i hc
    refine ⟨iff_of_true rfl ?_, fun _ => ⟨?_, rfl⟩⟩
    · calc (m : Rat) * 2 ^ e < 2 ^ (53 : Int) * 2 ^ e :=
            mul_lt_mul_of_pos_right (by exact_mod_cast hm) (two_zpow_pos e)
        _ = 2 ^ (53 + e) := (two_zpow_add 53 e).symm
        _ ≤ 2 ^ (1024 : Int) := two_zpow_mono (by have := hc.2.2.1; omega)
    · rw [← ratAbs_eq]
      exact abs_value_finite negative hc
  · -- only the exponent can be too large, and then the mantissa is full
    rename_i hc
    have hlarge : 972 ≤ e := by
      by_contra hsmall
      exact hc ⟨hm, he, by omega, hfull⟩
    have hm' : 4503599627370496 ≤ m := by omega
    refine ⟨iff_of_false Bool.false_ne_true (not_lt.mpr ?_), fun h => absurd h Bool.false_ne_true⟩
    calc (2 : Rat) ^ (1024 : Int) ≤ 2 ^ (52 + e) := two_zpow_mono (by omega)
      _ = 2 ^ (52 : Int) * 2 ^ e := two_zpow_add 52 e
      _ ≤ (m : Rat) * 2 ^ e :=
          mul_le_mul_of_nonneg_right (by exact_mod_cast hm') (two_zpow_pos e).le

/-- On a positive rational of the binade of `e`, the mantissas are the multiples of `2 ^ e`. -/
theorem gridExponent_of_binade {q : Rat} {e : Int} (hlow : (2 : Rat) ^ (e + 52) ≤ q)
    (hhigh : q < 2 ^ (e + 53)) (he : -1074 ≤ e) : gridExponent q = e := by
  have hexponent : binaryExponent q = e + 52 := by
    refine binaryExponent_eq hlow ?_
    rwa [show e + 52 + 1 = e + 53 by ring]
  rw [gridExponent, hexponent]
  omega

/-- Below the overflow bound the exponent stays in its range also after rounding. -/
theorem gridValue_lt_iff {q : Rat} (hq : 0 < q) :
    gridValue q < 2 ^ (1024 : Int) ↔ q < overflowBound := by
  have hpow := two_zpow_pos (gridExponent q)
  obtain ⟨hlow, hhigh⟩ := binaryExponent_bounds hq
  obtain ⟨-, hmost, hleast⟩ := gridMantissa_bounds hq
  have htop : (2 : Rat) ^ (1024 : Int) = 2 ^ (53 : Int) * 2 ^ (971 : Int) := two_zpow_add 53 971
  have hbound : overflowBound = (2 ^ (53 : Int) - 1 / 2) * 2 ^ (971 : Int) := by
    rw [overflowBound, htop, show (971 : Int) = 1 + 970 by norm_num, two_zpow_add 1 970]
    ring
  rcases lt_trichotomy (gridExponent q) 971 with hsmall | htopGrid | hlarge
  · -- the mantissa cannot carry the value to the bound
    have hgrid : (2 : Rat) ^ gridExponent q ≤ 2 ^ (970 : Int) := two_zpow_mono (by omega)
    have hhalf : (2 : Rat) ^ (971 : Int) = 2 * 2 ^ (970 : Int) := two_zpow_add 1 970
    have hunit : (0 : Rat) < 2 ^ (970 : Int) := two_zpow_pos 970
    have hexponent : binaryExponent q + 1 ≤ 53 + 970 := by rw [gridExponent] at hsmall; omega
    refine iff_of_true ?_ ?_
    · have hm : (gridMantissa q : Rat) ≤ 2 ^ (53 : Int) := by norm_num; exact_mod_cast hmost
      calc gridValue q ≤ 2 ^ (53 : Int) * 2 ^ gridExponent q :=
            mul_le_mul_of_nonneg_right hm hpow.le
        _ ≤ 2 ^ (53 : Int) * 2 ^ (970 : Int) := mul_le_mul_of_nonneg_left hgrid (two_zpow_pos _).le
        _ < 2 ^ (1024 : Int) := by
            rw [htop, hhalf, ← mul_assoc]
            exact mul_lt_mul_of_pos_right (by norm_num) hunit
    · calc q < 2 ^ (binaryExponent q + 1) := hhigh
        _ ≤ 2 ^ (53 + 970) := two_zpow_mono hexponent
        _ = 2 ^ (53 : Int) * 2 ^ (970 : Int) := two_zpow_add 53 970
        _ < overflowBound := by
            rw [hbound, hhalf, ← mul_assoc]
            exact mul_lt_mul_of_pos_right (by norm_num) hunit
  · -- the last grid: the bound is halfway between its last two mantissas
    have hscaled : q < overflowBound ↔ q / 2 ^ gridExponent q < 2 ^ (53 : Int) - 1 / 2 := by
      rw [htopGrid, hbound, div_lt_iff₀ (two_zpow_pos 971)]
    have hvalue : gridValue q < 2 ^ (1024 : Int) ↔ gridMantissa q < 9007199254740992 := by
      rw [gridValue, htopGrid, htop, mul_lt_mul_iff_left₀ (two_zpow_pos 971)]
      norm_num
      exact_mod_cast Iff.rfl
    rw [hscaled, hvalue, gridMantissa]
    constructor
    · intro hlt
      by_contra hge
      have hup := nearestInteger_mono (not_lt.mp hge)
      have hhalfway : nearestInteger (2 ^ (53 : Int) - 1 / 2) = 9007199254740992 := by
        decide +kernel
      rw [hhalfway] at hup
      omega
    · intro hlt
      have hle : nearestInteger (q / 2 ^ gridExponent q) ≤ 9007199254740991 := by
        refine nearestInteger_le (lt_of_lt_of_eq hlt ?_)
        norm_num
      omega
  · have hexponent : 1024 ≤ binaryExponent q := by rw [gridExponent] at hlarge; omega
    have hm : (2 : Rat) ^ (52 : Int) ≤ gridMantissa q := by
      have : 4503599627370496 ≤ gridMantissa q := by omega
      norm_num
      exact_mod_cast this
    refine iff_of_false (not_lt.mpr ?_) (not_lt.mpr ?_)
    · calc (2 : Rat) ^ (1024 : Int) ≤ 2 ^ (52 + gridExponent q) := two_zpow_mono (by omega)
        _ = 2 ^ (52 : Int) * 2 ^ gridExponent q := two_zpow_add _ _
        _ ≤ gridValue q := mul_le_mul_of_nonneg_right hm hpow.le
    · calc overflowBound ≤ 2 ^ (1024 : Int) := sub_le_self _ (two_zpow_pos 970).le
        _ ≤ 2 ^ binaryExponent q := two_zpow_mono hexponent
        _ ≤ q := hlow

/-- The grid value is off by at most half a unit of its last place. -/
theorem abs_gridValue_sub_le {q : Rat} (hq : 0 < q) :
    |gridValue q - q| ≤ q / 2 ^ (53 : Int) + 1 / 2 ^ (1075 : Int) := by
  have hpow := two_zpow_pos (gridExponent q)
  have hscaled : gridValue q - q = (gridMantissa q - q / 2 ^ gridExponent q) * 2 ^ gridExponent q := by
    rw [gridValue, sub_mul, div_mul_cancel₀ q hpow.ne']
  have hhalf : |gridValue q - q| ≤ 1 / 2 * 2 ^ gridExponent q := by
    rw [hscaled, abs_mul, abs_of_pos hpow]
    exact mul_le_mul_of_nonneg_right (abs_nearestInteger_sub_le _) hpow.le
  refine le_trans hhalf ?_
  have hq' : 0 ≤ q / 2 ^ (53 : Int) := div_nonneg hq.le (two_zpow_pos 53).le
  have hlast : (0 : Rat) ≤ 1 / 2 ^ (1075 : Int) := div_nonneg zero_le_one (two_zpow_pos 1075).le
  rcases gridExponent_cases q with he | ⟨he, -⟩
  · have hbinade : (2 : Rat) ^ binaryExponent q = 2 ^ (52 : Int) * 2 ^ gridExponent q := by
      rw [← two_zpow_add, he]
      congr 1
      ring
    have hrelative : 1 / 2 * 2 ^ gridExponent q ≤ q / 2 ^ (53 : Int) := by
      rw [le_div_iff₀ (two_zpow_pos 53)]
      calc 1 / 2 * 2 ^ gridExponent q * 2 ^ (53 : Int) = 2 ^ (52 : Int) * 2 ^ gridExponent q := by
            norm_num
            ring
        _ ≤ q := hbinade ▸ (binaryExponent_bounds hq).1
    linarith
  · have hsubnormal : (1 : Rat) / 2 * 2 ^ gridExponent q = 1 / 2 ^ (1075 : Int) := by
      rw [he, show (1075 : Int) = 1 + 1074 by norm_num, two_zpow_add, zpow_neg, one_div, one_div,
        mul_inv]
      rfl
    linarith

/-- Rounding to the grid keeps the order. -/
theorem gridValue_mono {q r : Rat} (hq : 0 < q) (h : q ≤ r) : gridValue q ≤ gridValue r := by
  have hr : 0 < r := lt_of_lt_of_le hq h
  have hexponent : gridExponent q ≤ gridExponent r := by
    have hlog : binaryExponent q ≤ binaryExponent r := by
      rw [binaryExponent_eq_log hq, binaryExponent_eq_log hr]
      exact Int.log_mono_right hq h
    rw [gridExponent, gridExponent]
    omega
  have hpow := two_zpow_pos (gridExponent r)
  rcases hexponent.eq_or_lt with heq | hlt
  · rw [gridValue, gridValue, gridMantissa, gridMantissa, heq]
    refine mul_le_mul_of_nonneg_right ?_ hpow.le
    exact_mod_cast nearestInteger_mono (div_le_div_of_nonneg_right h hpow.le)
  · -- the greatest mantissa of the finer grid is the least of the next one
    have hm : (gridMantissa q : Rat) ≤ 2 ^ (53 : Int) := by
      norm_num
      exact_mod_cast (gridMantissa_bounds hq).2.1
    have hm' : (2 : Rat) ^ (52 : Int) ≤ gridMantissa r := by
      have hfinest : -1074 ≤ gridExponent q := le_max_left _ _
      have : 4503599627370496 ≤ gridMantissa r := by
        have := (gridMantissa_bounds hr).2.2
        omega
      norm_num
      exact_mod_cast this
    calc gridValue q ≤ 2 ^ (53 : Int) * 2 ^ gridExponent q :=
          mul_le_mul_of_nonneg_right hm (two_zpow_pos _).le
      _ = 2 ^ (53 + gridExponent q) := (two_zpow_add _ _).symm
      _ ≤ 2 ^ (52 + gridExponent r) := two_zpow_mono (by omega)
      _ = 2 ^ (52 : Int) * 2 ^ gridExponent r := two_zpow_add _ _
      _ ≤ gridValue r := mul_le_mul_of_nonneg_right hm' hpow.le

@[simp] theorem gridValue_zero : gridValue 0 = 0 := by
  have hzero : nearestInteger 0 = 0 := by decide +kernel
  rw [gridValue, gridMantissa, zero_div, hzero, Int.cast_zero, zero_mul]

theorem gridValue_nonneg {q : Rat} (hq : 0 ≤ q) : 0 ≤ gridValue q := by
  rcases hq.eq_or_lt with rfl | hpos
  · rw [gridValue_zero]
  · have h : (0 : Rat) ≤ gridMantissa q := by exact_mod_cast (gridMantissa_bounds hpos).1
    exact mul_nonneg h (two_zpow_pos _).le

end Binary64

end Quadra
