import Mathlib.Algebra.Order.Field.Power
import Mathlib.Data.Int.Log
import Mathlib.Data.Rat.Floor
import Mathlib.Tactic.FieldSimp
import Mathlib.Tactic.Linarith
import Mathlib.Tactic.NormNum
import Mathlib.Tactic.Positivity
import Mathlib.Tactic.Ring
import Quadra.Binary64.Rounding

set_option autoImplicit false

/-!
# Rounding of representable rationals

A rational is representable when it is `m * 2 ^ e` for a canonical mantissa and exponent. Such a
rational lies on its own rounding grid, so rounding gives back the number with these fields:
`ofMagnitude_of_canonical`. The integers up to `2 ^ 53` are representable.
-/

namespace Quadra

/-! ## Binary exponents -/

/-- An integer is its own nearest integer. -/
@[simp] theorem nearestInteger_intCast (n : Int) : nearestInteger n = n := by
  have hrest : (n : Rat) - ((n : Rat).floor : Rat) < 1 / 2 := by
    rw [Rat.floor_intCast, sub_self]
    norm_num
  rw [nearestInteger, if_pos hrest, Rat.floor_intCast]

/-- The estimate from the bit lengths of numerator and denominator is the binary logarithm or one
more. -/
theorem estimate_bounds {q : Rat} (hq : 0 < q) :
    (2 : Rat) ^ ((q.num.natAbs.log2 : Int) - (q.den.log2 : Int) - 1) ≤ q ∧
      q < 2 ^ ((q.num.natAbs.log2 : Int) - (q.den.log2 : Int) + 1) := by
  set a := q.num.natAbs.log2 with ha
  set b := q.den.log2 with hb
  have hn : q.num.natAbs ≠ 0 := by have := Rat.num_pos.mpr hq; omega
  have hnum : (q.num : Rat) = (q.num.natAbs : Rat) := by
    rw [Nat.cast_natAbs, abs_of_pos (Rat.num_pos.mpr hq)]
  have hq' : q * q.den = q.num.natAbs := by rw [← hnum, Rat.mul_den_eq_num]
  have ha₁ : (2 : Rat) ^ (a : Int) ≤ q.num.natAbs := by
    exact_mod_cast Nat.log2_self_le hn
  have ha₂ : (q.num.natAbs : Rat) < 2 ^ ((a : Int) + 1) := by
    exact_mod_cast Nat.lt_log2_self (n := q.num.natAbs)
  have hb₁ : (2 : Rat) ^ (b : Int) ≤ q.den := by
    exact_mod_cast Nat.log2_self_le q.den_nz
  have hb₂ : (q.den : Rat) < 2 ^ ((b : Int) + 1) := by
    exact_mod_cast Nat.lt_log2_self (n := q.den)
  have hden : (0 : Rat) < q.den := by exact_mod_cast q.den_pos
  constructor
  · refine le_of_mul_le_mul_right ?_ hden
    calc (2 : Rat) ^ ((a : Int) - b - 1) * q.den
        ≤ 2 ^ ((a : Int) - b - 1) * 2 ^ ((b : Int) + 1) :=
          mul_le_mul_of_nonneg_left hb₂.le (by positivity)
      _ = 2 ^ (a : Int) := by rw [← zpow_add₀ (by norm_num)]; congr 1; ring
      _ ≤ q * q.den := by rw [hq']; exact ha₁
  · refine lt_of_mul_lt_mul_right ?_ hden.le
    calc q * q.den < 2 ^ ((a : Int) + 1) := by rw [hq']; exact ha₂
      _ = 2 ^ ((a : Int) - b + 1) * 2 ^ (b : Int) := by
          rw [← zpow_add₀ (by norm_num)]; congr 1; ring
      _ ≤ 2 ^ ((a : Int) - b + 1) * q.den := mul_le_mul_of_nonneg_left hb₁ (by positivity)

/-- The binary exponent of a positive rational is its binary logarithm. -/
theorem binaryExponent_eq_log {q : Rat} (hq : 0 < q) : binaryExponent q = Int.log 2 q := by
  obtain ⟨hlow, hhigh⟩ := estimate_bounds hq
  have le_log : ∀ k : Int, (2 : Rat) ^ k ≤ q ↔ k ≤ Int.log 2 q := fun k => by
    exact_mod_cast Int.zpow_le_iff_le_log (b := 2) (by norm_num) hq
  have log_lt : ∀ k : Int, q < (2 : Rat) ^ k ↔ Int.log 2 q < k := fun k => by
    exact_mod_cast Int.lt_zpow_iff_log_lt (b := 2) (by norm_num) hq
  rw [le_log] at hlow
  rw [log_lt] at hhigh
  unfold binaryExponent
  simp only [le_log]
  split <;> omega

/-- The binary exponent is the only one whose power of two lies at most a factor two below. -/
theorem binaryExponent_eq {q : Rat} {k : Int} (hlow : (2 : Rat) ^ k ≤ q)
    (hhigh : q < 2 ^ (k + 1)) : binaryExponent q = k := by
  have hq : 0 < q := lt_of_lt_of_le (by positivity) hlow
  have h₁ : k ≤ Int.log 2 q :=
    (Int.zpow_le_iff_le_log (b := 2) (by norm_num) hq).mp (by exact_mod_cast hlow)
  have h₂ : Int.log 2 q < k + 1 :=
    (Int.lt_zpow_iff_log_lt (b := 2) (by norm_num) hq).mp (by exact_mod_cast hhigh)
  rw [binaryExponent_eq_log hq]
  omega

namespace Binary64

/-! ## Representable rationals -/

/-- A rational with canonical fields is rounded on the grid of its own exponent. -/
theorem gridExponent_of_canonical {m : Nat} {e : Int} (h : Canonical m e) (hm : m ≠ 0) :
    gridExponent (m * 2 ^ e) = e := by
  obtain ⟨hlt, hmin, -, hfull⟩ := h
  have hpow : (0 : Rat) < 2 ^ e := by positivity
  have hm₀ : (0 : Rat) < m := by exact_mod_cast Nat.pos_of_ne_zero hm
  have hlow : (2 : Rat) ^ ((m.log2 : Int) + e) ≤ m * 2 ^ e := by
    rw [zpow_add₀ (by norm_num)]
    refine mul_le_mul_of_nonneg_right ?_ hpow.le
    exact_mod_cast Nat.log2_self_le hm
  have hhigh : (m : Rat) * 2 ^ e < 2 ^ ((m.log2 : Int) + e + 1) := by
    rw [show (m.log2 : Int) + e + 1 = (m.log2 + 1 : Nat) + e by push_cast; ring,
      zpow_add₀ (by norm_num)]
    refine mul_lt_mul_of_pos_right ?_ hpow
    exact_mod_cast Nat.lt_log2_self (n := m)
  have hlog : m.log2 < 53 := (Nat.log2_lt hm).mpr (by omega)
  rw [gridExponent, binaryExponent_eq hlow hhigh]
  -- a full mantissa fixes the exponent, and without one the exponent is the least
  rcases hfull with hfull | rfl
  · have : 52 ≤ m.log2 := (Nat.le_log2 hm).mpr (by omega)
    omega
  · omega

/-- Rounding gives a representable rational back. -/
theorem ofMagnitude_of_canonical (negative : Bool) {m : Nat} {e : Int} (h : Canonical m e) :
    ofMagnitude negative (m * 2 ^ e) = .finite negative m e h := by
  have hpow : (0 : Rat) < 2 ^ e := by positivity
  rcases Nat.eq_zero_or_pos m with rfl | hm
  · -- the only canonical fields of zero
    have he : e = -1074 := by obtain ⟨-, -, -, hfull⟩ := h; omega
    subst he
    rw [ofMagnitude, if_pos (by simp)]
    rfl
  · have hm₀ : (0 : Rat) < m := by exact_mod_cast hm
    have hmant : nearestInteger (m * 2 ^ e / 2 ^ e : Rat) = m := by
      rw [mul_div_cancel_right₀ _ hpow.ne']
      exact nearestInteger_intCast m
    have hne : m ≠ 9007199254740992 := by have := h.1; omega
    have hq : ¬ (m : Rat) * 2 ^ e ≤ 0 := not_le.mpr (by positivity)
    rw [ofMagnitude, if_neg hq]
    simp only [gridExponent_of_canonical h hm.ne', hmant, Int.toNat_natCast]
    rw [if_neg hne, pack, dif_pos h]

/-- The magnitude of a finite number is what its fields stand for. -/
theorem abs_value_finite (negative : Bool) {m : Nat} {e : Int} (h : Canonical m e) :
    (finite negative m e h).value.abs = m * 2 ^ e := by
  have hnonneg : (0 : Rat) ≤ m * 2 ^ e := by positivity
  cases negative
  · exact Rat.abs_of_nonneg hnonneg
  · exact Rat.abs_neg.trans (Rat.abs_of_nonneg hnonneg)

/-- A finite number is what its magnitude rounds to under its sign. -/
theorem ofMagnitude_abs_value {x : Binary64} (hx : x.isFinite = true) :
    ofMagnitude x.isNegative x.value.abs = x := by
  rcases x with _ | _ | ⟨negative, m, e, h⟩
  · cases hx
  · cases hx
  · rw [abs_value_finite]
    exact ofMagnitude_of_canonical negative h

theorem value_nonneg_of_isNegative_eq_false {x : Binary64} (hx : x.isNegative = false) :
    0 ≤ x.value := by
  rcases x with _ | _ | ⟨_ | _, m, e, h⟩
  · exact le_rfl
  · exact le_rfl
  · show (0 : Rat) ≤ m * 2 ^ e
    positivity
  · cases hx

theorem value_nonpos_of_isNegative {x : Binary64} (hx : x.isNegative = true) : x.value ≤ 0 := by
  rcases x with _ | _ | ⟨_ | _, m, e, h⟩
  · exact le_rfl
  · exact le_rfl
  · cases hx
  · show -(m * 2 ^ e : Rat) ≤ 0
    have : (0 : Rat) ≤ m * 2 ^ e := by positivity
    linarith

/-- A finite number other than zero is the nearest to its own value. -/
theorem nearest_value {x : Binary64} (hx : x.isFinite = true) (hne : x.value ≠ 0) :
    nearest x.value = x := by
  rw [nearest]
  cases hs : x.isNegative with
  | false =>
      have h₀ := value_nonneg_of_isNegative_eq_false hs
      rw [if_neg (not_lt.mpr h₀)]
      have := ofMagnitude_abs_value hx
      rwa [hs, Rat.abs_of_nonneg h₀] at this
  | true =>
      have h₀ := value_nonpos_of_isNegative hs
      rw [if_pos (lt_of_le_of_ne h₀ hne)]
      have := ofMagnitude_abs_value hx
      rwa [hs, Rat.abs_of_nonpos h₀] at this

/-- Rounding does not change a rational that is the value of a number. -/
theorem value_nearest {q : Rat} (h : ∃ x : Binary64, x.isFinite = true ∧ x.value = q) :
    (nearest q).isFinite = true ∧ (nearest q).value = q := by
  obtain ⟨x, hx, rfl⟩ := h
  by_cases hne : x.value = 0
  · rw [hne, nearest_zero]
    exact ⟨rfl, value_zero false⟩
  · rw [nearest_value hx hne]
    exact ⟨hx, rfl⟩

/-! ## Integers -/

/-- A mantissa of at most 53 bits has canonical fields on every grid: it is shifted up as far as its
length and the least exponent allow. -/
theorem exists_canonical {n : Nat} {e : Int} (hn : n < 9007199254740992) (hlow : -1074 ≤ e)
    (hhigh : e ≤ 971) : ∃ m f, Canonical m f ∧ (m : Rat) * 2 ^ f = n * 2 ^ e := by
  rcases Nat.eq_zero_or_pos n with rfl | hpos
  · exact ⟨0, -1074, canonical_zero, by simp⟩
  have hlog : n.log2 < 53 := (Nat.log2_lt hpos.ne').mpr (by omega)
  have hleast : 2 ^ n.log2 ≤ n := Nat.log2_self_le hpos.ne'
  have hmost : n < 2 ^ (n.log2 + 1) := Nat.lt_log2_self
  obtain ⟨k, hk⟩ : ∃ k, k = min (52 - n.log2) (e + 1074).toNat := ⟨_, rfl⟩
  have hbits : n * 2 ^ k < 9007199254740992 := by
    calc n * 2 ^ k < 2 ^ (n.log2 + 1) * 2 ^ k := Nat.mul_lt_mul_of_pos_right hmost (by positivity)
      _ = 2 ^ (n.log2 + 1 + k) := (pow_add 2 _ _).symm
      _ ≤ 2 ^ 53 := Nat.pow_le_pow_right (by norm_num) (by omega)
      _ = 9007199254740992 := by norm_num
  have hfull : 4503599627370496 ≤ n * 2 ^ k ∨ e - k = -1074 := by
    rcases le_total (52 - n.log2) (e + 1074).toNat with hle | hle
    · left
      have hsum : n.log2 + k = 52 := by omega
      calc 4503599627370496 = 2 ^ n.log2 * 2 ^ k := by rw [← pow_add, hsum]; norm_num
        _ ≤ n * 2 ^ k := Nat.mul_le_mul_right _ hleast
    · right
      omega
  refine ⟨n * 2 ^ k, e - k, ⟨hbits, by omega, by omega, hfull⟩, ?_⟩
  rw [zpow_sub₀ (by norm_num), zpow_natCast]
  push_cast
  field_simp

/-- A multiple of a power of two with a mantissa of at most 53 bits is the value of a number. -/
theorem exists_value_eq_mul_zpow {n : Nat} {e : Int} (hn : n < 9007199254740992) (hlow : -1074 ≤ e)
    (hhigh : e ≤ 971) : ∃ x : Binary64, x.isFinite = true ∧ x.value = n * 2 ^ e := by
  obtain ⟨m, f, hcanonical, hvalue⟩ := exists_canonical hn hlow hhigh
  exact ⟨.finite false m f hcanonical, rfl, hvalue⟩

/-- A multiple of a power of two with a mantissa of at most 53 bits is the value of a number, with either
sign. -/
theorem exists_value_eq_intCast_mul_zpow {n e : Int} (hn : n.natAbs < 9007199254740992)
    (hlow : -1074 ≤ e) (hhigh : e ≤ 971) : ∃ x : Binary64, x.isFinite = true ∧ x.value = n * 2 ^ e := by
  obtain ⟨x, hx, hvalue⟩ := exists_value_eq_mul_zpow hn hlow hhigh
  rw [Nat.cast_natAbs, Int.cast_abs] at hvalue
  rcases abs_choice (n : Rat) with h | h
  · exact ⟨x, hx, by rw [hvalue, h]⟩
  · refine ⟨-x, (isFinite_neg x).trans hx, ?_⟩
    rw [show (-x).value = -x.value from value_neg x, hvalue, h, neg_mul, Rat.neg_neg]

/-- The integers up to `2 ^ 53` have canonical fields. -/
theorem exists_canonical_natCast {n : Nat} (hn : n ≤ 9007199254740992) :
    ∃ m e, Canonical m e ∧ (m : Rat) * 2 ^ e = n := by
  rcases hn.lt_or_eq with hlt | rfl
  · have hcanonical := exists_canonical (e := 0) hlt (by norm_num) (by norm_num)
    rwa [zpow_zero, mul_one] at hcanonical
  · exact ⟨4503599627370496, 1, by decide, by norm_num⟩

/-- The integers up to `2 ^ 53` are values of numbers. -/
theorem exists_value_eq_intCast {n : Int} (hn : |n| ≤ 9007199254740992) :
    ∃ x : Binary64, x.isFinite = true ∧ x.value = n := by
  have hn' := abs_le.mp hn
  obtain ⟨m, e, hc, hval⟩ := exists_canonical_natCast (n := n.natAbs) (by omega)
  rcases le_total 0 n with hpos | hneg
  · refine ⟨.finite false m e hc, rfl, ?_⟩
    show (m : Rat) * 2 ^ e = n
    rw [hval, Nat.cast_natAbs, abs_of_nonneg hpos]
  · refine ⟨.finite true m e hc, rfl, ?_⟩
    show -((m : Rat) * 2 ^ e) = n
    rw [hval, Nat.cast_natAbs, abs_of_nonpos hneg]
    push_cast
    ring

end Binary64

end Quadra
