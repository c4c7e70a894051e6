import Mathlib.Algebra.Order.BigOperators.Group.List
import Mathlib.Data.List.Induction
import Mathlib.Tactic.Linarith
import Quadra.Numeric.Floor
import Quadra.Proofs.Binary64.Rounding

set_option autoImplicit false

/-!
# Arithmetic without rounding

The operations on finite numbers whose exact result is the value of a number: they are not rounded,
so they follow the rules of the rationals. Sums with a zero, sums of integers up to `2 ^ 53` and
products with `1` and `-1` are of this kind.
-/

namespace Quadra

namespace Binary64

/-! ## Finite numbers -/

theorem eq_finite_of_isFinite {x : Binary64} (hx : x.isFinite = true) :
    ∃ s m e h, x = finite s m e h := by
  rcases x with _ | _ | ⟨s, m, e, h⟩
  · cases hx
  · cases hx
  · exact ⟨s, m, e, h, rfl⟩

@[simp] theorem ofNat_zero : (0 : Binary64) = zero false := nearest_zero

theorem isFinite_ofNat_zero : (0 : Binary64).isFinite = true := by
  rw [ofNat_zero]
  rfl

theorem value_ofNat_zero : (0 : Binary64).value = 0 := by
  rw [ofNat_zero, value_zero]

theorem ofNat_one : (1 : Binary64) = .finite false 4503599627370496 (-52) (by decide) := by
  have hval : (finite false 4503599627370496 (-52) (by decide)).value = 1 := by
    show (4503599627370496 : Rat) * 2 ^ (-52 : Int) = 1
    norm_num
  -- the literal is a rounded rational, and these fields are what it is rounded to
  have h := nearest_value (x := finite false 4503599627370496 (-52) (by decide)) rfl
    (by rw [hval]; norm_num)
  rw [hval] at h
  exact h

theorem isFinite_ofNat_one : (1 : Binary64).isFinite = true := by
  rw [ofNat_one]
  rfl

theorem value_one : (1 : Binary64).value = 1 := by
  rw [ofNat_one]
  show (4503599627370496 : Rat) * 2 ^ (-52 : Int) = 1
  norm_num

theorem value_eq_zero_of_isZero {x : Binary64} (h : x.isZero = true) : x.value = 0 := by
  rcases x with _ | _ | ⟨negative, m, e, hc⟩
  · rfl
  · rfl
  · obtain rfl : m = 0 := beq_iff_eq.mp h
    cases negative <;> simp [value]

/-- A finite number whose value is zero is the zero of its sign. -/
theorem eq_zero_of_value_eq_zero {x : Binary64} (hx : x.isFinite = true) (h : x.value = 0) :
    x = zero x.isNegative := by
  rw [← ofMagnitude_abs_value hx, h, Rat.abs_zero, ofMagnitude, if_pos le_rfl]
  rfl

theorem isZero_iff {x : Binary64} (hx : x.isFinite = true) : x.isZero = true ↔ x.value = 0 := by
  refine ⟨value_eq_zero_of_isZero, fun h => ?_⟩
  rw [eq_zero_of_value_eq_zero hx h]
  rfl

theorem lt_iff_value_lt {x y : Binary64} (hx : x.isFinite = true) (hy : y.isFinite = true) :
    x < y ↔ x.value < y.value := by
  obtain ⟨s, m, e, h, rfl⟩ := eq_finite_of_isFinite hx
  obtain ⟨s', m', e', h', rfl⟩ := eq_finite_of_isFinite hy
  exact decide_eq_true_iff

theorem lt_zero_iff {x : Binary64} (hx : x.isFinite = true) : x < 0 ↔ x.value < 0 := by
  rw [ofNat_zero, lt_iff_value_lt hx rfl, value_zero]

theorem le_iff_value_le {x y : Binary64} (hx : x.isFinite = true) (hy : y.isFinite = true) :
    x ≤ y ↔ x.value ≤ y.value := by
  obtain ⟨s, m, e, h, rfl⟩ := eq_finite_of_isFinite hx
  obtain ⟨s', m', e', h', rfl⟩ := eq_finite_of_isFinite hy
  show (decide _ || decide _) = true ↔ _
  rw [Bool.or_eq_true, decide_eq_true_iff, decide_eq_true_iff, le_iff_lt_or_eq]

/-! ## Sums -/

/-- The sum of finite numbers is the rounded sum of their values. -/
theorem add_of_isFinite {x y : Binary64} (hx : x.isFinite = true) (hy : y.isFinite = true) :
    x + y = if x.value + y.value = 0 then zero (x.isNegative && y.isNegative)
      else nearest (x.value + y.value) := by
  obtain ⟨s, m, e, h, rfl⟩ := eq_finite_of_isFinite hx
  obtain ⟨s', m', e', h', rfl⟩ := eq_finite_of_isFinite hy
  rfl

/-- A sum that is the value of a number is exact. -/
theorem value_add {x y : Binary64} (hx : x.isFinite = true) (hy : y.isFinite = true)
    (h : ∃ z : Binary64, z.isFinite = true ∧ z.value = x.value + y.value) :
    (x + y).isFinite = true ∧ (x + y).value = x.value + y.value := by
  rw [add_of_isFinite hx hy]
  split
  · rename_i hzero
    exact ⟨rfl, by rw [value_zero, hzero]⟩
  · exact value_nearest h

/-- A zero of either sign adds nothing to a number other than zero. -/
theorem zero_add_of_ne (negative : Bool) {x : Binary64} (hx : x.isFinite = true)
    (hne : x.value ≠ 0) : zero negative + x = x := by
  rw [add_of_isFinite rfl hx, value_zero, Rat.zero_add, if_neg hne, nearest_value hx hne]

theorem add_zero_of_ne (negative : Bool) {x : Binary64} (hx : x.isFinite = true)
    (hne : x.value ≠ 0) : x + zero negative = x := by
  rw [add_of_isFinite hx rfl, value_zero, Rat.add_zero, if_neg hne, nearest_value hx hne]

/-- The negative zero adds nothing to any finite number. -/
theorem add_negative_zero {x : Binary64} (hx : x.isFinite = true) : x + zero true = x := by
  by_cases hvalue : x.value = 0
  · rw [eq_zero_of_value_eq_zero hx hvalue]
    generalize x.isNegative = negative
    cases negative <;> decide +kernel
  · exact add_zero_of_ne true hx hvalue

/-- Zeros of either sign may be added to any number but the negative zero. -/
theorem foldl_add_zeros {x : Binary64} (hx : x.isFinite = true) (hne : x ≠ zero true)
    {zs : List Binary64} (hzs : ∀ z ∈ zs, ∃ negative, z = zero negative) :
    zs.foldl (· + ·) x = x := by
  induction zs with
  | nil => rfl
  | cons z zs ih =>
      obtain ⟨⟨negative, rfl⟩, hothers⟩ := List.forall_mem_cons.mp hzs
      have hstay : x + zero negative = x := by
        by_cases hvalue : x.value = 0
        · -- zeros add up to the negative zero only when both are negative
          have hzero := eq_zero_of_value_eq_zero hx hvalue
          cases hs : x.isNegative with
          | true => exact absurd (hs ▸ hzero) hne
          | false =>
              rw [hs] at hzero
              rw [hzero, add_of_isFinite rfl rfl, value_zero, value_zero, add_zero, if_pos rfl]
              rfl
        · exact add_zero_of_ne negative hx hvalue
      rw [List.foldl_cons, hstay, ih hothers]

theorem exists_sum_eq_intCast {cs : List Binary64} (h : ∀ c ∈ cs, ∃ k : Int, c.value = k) :
    ∃ k : Int, (cs.map value).sum = k := by
  induction cs with
  | nil => exact ⟨0, by simp⟩
  | cons c cs ih =>
      obtain ⟨⟨k, hk⟩, hcs⟩ := List.forall_mem_cons.mp h
      obtain ⟨l, hl⟩ := ih hcs
      refine ⟨k + l, ?_⟩
      rw [List.map_cons, List.sum_cons, hk, hl, Int.cast_add]

/-- A sum of integers is exact as long as their magnitudes add up to at most `2 ^ 53`. -/
theorem foldl_add_of_integers {cs : List Binary64} (hfinite : ∀ c ∈ cs, c.isFinite = true)
    (hinteger : ∀ c ∈ cs, ∃ k : Int, c.value = k)
    (hbound : (cs.map fun c => |c.value|).sum ≤ 2 ^ 53) :
    (cs.foldl (· + ·) 0).isFinite = true ∧ (cs.foldl (· + ·) 0).value = (cs.map value).sum := by
  -- the fold adds at the end: the sum so far is an integer within the bound, and so is the next
  induction cs using List.reverseRecOn with
  | nil =>
      exact ⟨isFinite_ofNat_zero, value_ofNat_zero⟩
  | append_singleton cs c ih =>
      obtain ⟨hcs, hc⟩ := List.forall_mem_append.mp hfinite
      have habs : |((cs ++ [c]).map value).sum| ≤ 2 ^ 53 := by
        refine le_trans (List.le_sum_of_subadditive _ abs_zero.le abs_add_le _) ?_
        rwa [List.map_map]
      rw [List.map_append, List.sum_append] at hbound
      have hlast : 0 ≤ ([c].map fun c => |c.value|).sum := by simp
      obtain ⟨hsum, hvalue⟩ := ih hcs (fun c hc => hinteger c (List.mem_append_left _ hc))
        (by linarith)
      obtain ⟨k, hk⟩ := exists_sum_eq_intCast hinteger
      have hexact : (cs.foldl (· + ·) 0).value + c.value = k := by
        rw [hvalue, ← hk]
        simp
      have hrepresented : ∃ z : Binary64, z.isFinite = true ∧
          z.value = (cs.foldl (· + ·) 0).value + c.value := by
        rw [hexact]
        refine exists_value_eq_intCast ?_
        rw [hk] at habs
        exact_mod_cast habs
      rw [List.foldl_append, List.foldl_cons, List.foldl_nil, hk, ← hexact]
      exact value_add hsum (hc c (List.mem_singleton_self c)) hrepresented

/-! ## Products -/

/-- The product of finite numbers is the rounded product of their values, with the sign of both. -/
theorem mul_of_isFinite {x y : Binary64} (hx : x.isFinite = true) (hy : y.isFinite = true) :
    x * y = ofMagnitude (x.isNegative != y.isNegative) (x.value * y.value).abs := by
  obtain ⟨s, m, e, h, rfl⟩ := eq_finite_of_isFinite hx
  obtain ⟨s', m', e', h', rfl⟩ := eq_finite_of_isFinite hy
  rfl

theorem isNegative_neg {x : Binary64} (hx : x.isFinite = true) :
    (-x).isNegative = !x.isNegative := by
  obtain ⟨s, m, e, h, rfl⟩ := eq_finite_of_isFinite hx
  rfl

/-- Multiplying by one changes nothing. -/
theorem mul_one_of_isFinite {x : Binary64} (hx : x.isFinite = true) : x * 1 = x := by
  have hsign : (1 : Binary64).isNegative = false := by rw [ofNat_one]; rfl
  rw [mul_of_isFinite hx isFinite_ofNat_one, value_one, mul_one, hsign, Bool.bne_false,
    ofMagnitude_abs_value hx]

/-- Multiplying by minus one flips the sign, also that of a zero. -/
theorem mul_neg_one_of_isFinite {x : Binary64} (hx : x.isFinite = true) : x * -1 = -x := by
  have hone : (-1 : Binary64).isFinite = true := (isFinite_neg 1).trans isFinite_ofNat_one
  have hsign : (-1 : Binary64).isNegative = true := by rw [ofNat_one]; rfl
  have hvalue_one : (-1 : Binary64).value = -1 := (value_neg 1).trans (congrArg (-·) value_one)
  have hneg : (-x).isFinite = true := by rw [← hx]; exact isFinite_neg x
  have hvalue : (-x).value.abs = x.value.abs := by
    rw [show (-x).value = -x.value from value_neg x, Rat.abs_neg]
  rw [mul_of_isFinite hx hone, hvalue_one, mul_neg, mul_one, Rat.abs_neg, hsign, Bool.bne_true,
    ← isNegative_neg hx, ← hvalue, ofMagnitude_abs_value hneg]

end Binary64

/-! ## Magnitudes -/

namespace Numeric

open Binary64

theorem isFinite_abs {x : Binary64} (hx : x.isFinite = true) : (abs x).isFinite = true := by
  unfold abs
  split
  · rw [← hx]
    exact isFinite_neg x
  · exact hx

/-- The magnitude of a finite number has the magnitude of its value. -/
theorem value_abs {x : Binary64} (hx : x.isFinite = true) : (abs x).value = |x.value| := by
  have hlt := lt_zero_iff hx
  unfold abs
  split
  · rename_i h
    rw [show (-x).value = -x.value from value_neg x, abs_of_neg (hlt.mp h)]
  · rename_i h
    rw [abs_of_nonneg (not_lt.mp fun h' => h (hlt.mpr h'))]

end Numeric

end Quadra
