import Mathlib.Data.List.TakeWhile
import Mathlib.Tactic.FieldSimp
import Mathlib.Tactic.Ring
import Quadra.Decimal.Shortest
import Quadra.Proofs.Binary64.Arithmetic

set_option autoImplicit false

/-!
# The shortest decimal reads back

The decimal that is printed for a number rounds to that number again: every decimal of the search is
tried before it is taken, the exact one behind them is the number itself, and stripping zeros does
not change the value. What is stripped of its zeros does not end in one.
-/

namespace Quadra.Decimal

/-! ## Zeros at the end -/

theorem ofDigitChars_digits (d : Decimal) : Nat.ofDigitChars 10 d.digits 0 = d.significand :=
  Nat.ofDigitChars_ten_toDigits

/-- The last digit is what ten leaves over. -/
theorem ofDigitChars_concat_mod_ten (front : List Char) (c : Char) :
    Nat.ofDigitChars 10 (front ++ [c]) 0 % 10 = (c.toNat - '0'.toNat) % 10 := by
  rw [Nat.ofDigitChars_append, Nat.ofDigitChars_cons, Nat.ofDigitChars_nil]
  omega

/-- Digits that do not end in a zero are no multiple of ten. -/
theorem ofDigitChars_mod_ten_ne_zero {digits : List Char} (hdigits : ∀ c ∈ digits, c.isDigit = true)
    (hne : digits ≠ []) (hlast : digits.getLast? ≠ some '0') :
    Nat.ofDigitChars 10 digits 0 % 10 ≠ 0 := by
  obtain ⟨front, c, rfl⟩ := (List.eq_nil_or_concat' digits).resolve_left hne
  have hc : c.isDigit = true := hdigits c (List.mem_append_right front List.mem_cons_self)
  have hzero : c.toNat ≠ '0'.toNat := by
    intro heq
    rw [Char.toNat_inj.mp heq, List.getLast?_concat] at hlast
    exact hlast rfl
  obtain ⟨hlow, hhigh⟩ := Char.isDigit_iff_toNat.mp hc
  have hnine : '9'.toNat = '0'.toNat + 9 := rfl
  rw [ofDigitChars_concat_mod_ten]
  omega

/-- The digits are some that do not end in a zero, and zeros behind them. -/
theorem exists_digits_eq (d : Decimal) :
    ∃ front, d.digits = front ++ List.replicate d.trailingZeros '0' ∧ front.getLast? ≠ some '0' := by
  have hzeros : d.digits.reverse.takeWhile (· == '0') = List.replicate d.trailingZeros '0' := by
    refine List.eq_replicate_iff.mpr ⟨rfl, ?_⟩
    intro c hc
    have hzero := List.mem_takeWhile_imp hc
    exact beq_iff_eq.mp hzero
  refine ⟨(d.digits.reverse.dropWhile (· == '0')).reverse, ?_, ?_⟩
  · rw [← List.reverse_inj, List.reverse_append, List.reverse_reverse, List.reverse_replicate,
      ← hzeros, List.takeWhile_append_dropWhile]
  · rw [List.getLast?_reverse]
    intro hhead
    have hstop := List.head?_dropWhile_not (· == '0') d.digits.reverse
    rw [hhead] at hstop
    cases hstop

section

variable {d : Decimal} {front : List Char}
  (hfront : d.digits = front ++ List.replicate d.trailingZeros '0')

include hfront

theorem significand_eq_pow_mul :
    d.significand = 10 ^ d.trailingZeros * Nat.ofDigitChars 10 front 0 := by
  rw [← Nat.ofDigitChars_replicate_zero, ← Nat.ofDigitChars_append, ← hfront, ofDigitChars_digits]

/-- What is left of the significand are the digits in front of the zeros. -/
theorem significand_strip : d.strip.significand = Nat.ofDigitChars 10 front 0 := by
  rw [strip, significand_eq_pow_mul hfront]
  exact Nat.mul_div_cancel_left _ (Nat.pow_pos (by decide))

end

/-- A significand is not divisible by ten any more when its last zeros are stripped. -/
theorem significand_strip_mod_ten {d : Decimal} (h : d.significand ≠ 0) :
    d.strip.significand % 10 ≠ 0 := by
  obtain ⟨front, hfront, hlast⟩ := exists_digits_eq d
  rw [significand_strip hfront]
  refine ofDigitChars_mod_ten_ne_zero (fun c hc => ?_) ?_ hlast
  · refine Nat.isDigit_of_mem_toDigits (by decide) (by decide) (?_ : c ∈ d.digits)
    rw [hfront]
    exact List.mem_append_left _ hc
  · rintro rfl
    rw [significand_eq_pow_mul hfront, Nat.ofDigitChars_nil, Nat.mul_zero] at h
    exact h rfl

/-- Stripping zeros does not change the value. -/
theorem value_strip (d : Decimal) : d.strip.value = d.value := by
  obtain ⟨front, hfront, -⟩ := exists_digits_eq d
  rw [value, value, significand_strip hfront, significand_eq_pow_mul hfront, strip,
    zpow_add₀ (by norm_num), zpow_natCast]
  push_cast
  ring

/-! ## Reading back -/

/-- Whatever the search takes reads back. -/
theorem readsBack_of_neighbour? {tie : Tie} {x : Binary64} {count : Nat} {d : Decimal}
    (h : neighbour? tie x count = some d) : readsBack x d = true := by
  simp only [neighbour?] at h
  split at h
  · cases h
  · cases h
    assumption
  · cases h
    assumption
  · split_ifs at h <;> cases h <;> assumption

/-- The exact decimal has the magnitude of the number. -/
theorem value_exact {x : Binary64} (hx : x.isFinite = true) : (exact x).value = x.value.abs := by
  obtain ⟨negative, m, e, h, rfl⟩ := Binary64.eq_finite_of_isFinite hx
  rw [Binary64.abs_value_finite]
  simp only [exact]
  split
  · rename_i he
    have hpow : ((Nat.pow 2 e.toNat : Nat) : Rat) = 2 ^ e := by
      rw [← Int.toNat_of_nonneg he, zpow_natCast, Int.toNat_natCast]
      exact Nat.cast_pow 2 e.toNat
    rw [value, zpow_zero, mul_one, Nat.cast_mul, hpow]
  · rename_i he
    have hneg : e = -((-e).toNat : Int) := by omega
    -- a power of ten below one is that power of two and that of five
    have hten : ((Nat.pow 5 (-e).toNat : Nat) : Rat) * 10 ^ e = 2 ^ e := by
      rw [show ((Nat.pow 5 (-e).toNat : Nat) : Rat) = 5 ^ (-e).toNat from Nat.cast_pow 5 _, hneg,
        Int.neg_neg, Int.toNat_natCast, zpow_neg, zpow_neg, zpow_natCast, zpow_natCast,
        show (10 : Rat) = 5 * 2 by norm_num, mul_pow]
      field_simp
    rw [value, Nat.cast_mul, mul_assoc, hten]

/-- **The printed digits read back**: the shortest decimal of a number rounds to its magnitude. -/
theorem ofMagnitude_shortest (tie : Tie) {x : Binary64} (hx : x.isFinite = true) :
    Binary64.ofMagnitude x.isNegative (shortest tie x).value = x := by
  rw [shortest]
  split
  · rename_i hzero
    have hvalue : (⟨0, 0⟩ : Decimal).value = 0 := by rw [value, Nat.cast_zero, zero_mul]
    rw [hvalue, Binary64.ofMagnitude, if_pos le_rfl]
    exact (Binary64.eq_zero_of_value_eq_zero hx (Binary64.value_eq_zero_of_isZero hzero)).symm
  · rw [value_strip]
    -- a search without a result falls back to the exact decimal
    cases hfound : (List.range 17).findSome? fun i => neighbour? tie x (i + 1) with
    | none =>
        rw [Option.getD_none, value_exact hx]
        exact Binary64.ofMagnitude_abs_value hx
    | some d =>
        obtain ⟨i, -, hi⟩ := List.exists_of_findSome?_eq_some hfound
        exact of_decide_eq_true (readsBack_of_neighbour? hi)

/-- The shortest decimal of a number that is not zero has no zero at its end. -/
theorem significand_shortest_mod_ten (tie : Tie) {x : Binary64} (hx : x.isFinite = true)
    (hne : x.value ≠ 0) : (shortest tie x).significand % 10 ≠ 0 := by
  have hzero : ¬ x.isZero = true := fun hzero => hne (Binary64.value_eq_zero_of_isZero hzero)
  have hback := ofMagnitude_shortest tie hx
  rw [shortest, if_neg hzero] at hback ⊢
  refine significand_strip_mod_ten fun hsignificand => ?_
  -- a decimal that is zero does not read back
  rw [value_strip, value, hsignificand, Nat.cast_zero, zero_mul, Binary64.ofMagnitude,
    if_pos le_rfl] at hback
  rw [← hback, Binary64.value_zero] at hne
  exact hne rfl

end Quadra.Decimal
