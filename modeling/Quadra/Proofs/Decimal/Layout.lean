import Quadra.Decimal.Layout
import Quadra.Decimal.Numeral
import Quadra.Proofs.Binary64.Symmetry
import Quadra.Proofs.Decimal.Shortest

set_option autoImplicit false

/-!
# Displayed numbers are numerals

A number is displayed as a numeral that denotes its shortest decimal, so that it is read back, with its
sign in front of it when it is below zero: `display_spec`.
-/

namespace Quadra

namespace Numeral

/-- A text that starts with a digit, has only digits and points, and is a numeral for `q`. -/
structure Writes (text : List Char) (q : Rat) : Prop where
  starts : ∃ c rest, text = c :: rest ∧ c.isDigit = true
  chars : ∀ c ∈ text, c.isDigit = true ∨ c = '.'
  numeral : isNumeral text = true
  value_eq : value text = q

section

variable {a : List Char} (ha : ∀ c ∈ a, c.isDigit = true)

include ha

theorem ne_point_of_isDigit : ∀ c ∈ a, (c != '.') = true := by
  intro c hc
  rw [bne_iff_ne]
  rintro rfl
  exact absurd (ha _ hc) (by decide)

theorem whole_append (b : List Char) : whole (a ++ '.' :: b) = a := by
  rw [whole, List.takeWhile_append_of_pos (ne_point_of_isDigit ha), List.takeWhile_cons_of_neg
    (by decide), List.append_nil]

theorem fraction_append (b : List Char) : fraction (a ++ '.' :: b) = b := by
  rw [fraction, List.dropWhile_append_of_pos (ne_point_of_isDigit ha),
    List.dropWhile_cons_of_neg (by decide)]
  rfl

theorem whole_eq_self : whole a = a := List.takeWhile_eq_self_iff.mpr (ne_point_of_isDigit ha)

theorem fraction_eq_nil : fraction a = [] := by
  rw [fraction, List.dropWhile_eq_nil_iff.mpr (ne_point_of_isDigit ha)]
  rfl

theorem exists_cons_of_isDigit (hne : a ≠ []) : ∃ c rest, a = c :: rest ∧ c.isDigit = true := by
  obtain ⟨c, rest, rfl⟩ := List.exists_cons_of_ne_nil hne
  exact ⟨c, rest, rfl, ha c List.mem_cons_self⟩

/-- Digits are a numeral for the integer that they denote. -/
theorem writes_digits (hne : a ≠ []) : Writes a (Nat.ofDigitChars 10 a 0) where
  starts := exists_cons_of_isDigit ha hne
  chars c hc := .inl (ha c hc)
  numeral := by
    rw [isNumeral, whole_eq_self ha, fraction_eq_nil ha, List.append_nil, List.all_eq_true.mpr ha,
      Bool.true_and, List.isEmpty_eq_false_iff.mpr hne]
    rfl
  value_eq := by
    rw [value, whole_eq_self ha, fraction_eq_nil ha, List.append_nil, List.length_nil, Nat.cast_zero,
      neg_zero, zpow_zero, mul_one]

/-- Digits on the sides of a point are a numeral when there is a digit at all. -/
theorem isNumeral_point {b : List Char} (hb : ∀ c ∈ b, c.isDigit = true) (hne : a ++ b ≠ []) :
    isNumeral (a ++ '.' :: b) = true := by
  have hall : ∀ c ∈ a ++ b, c.isDigit = true := List.forall_mem_append.mpr ⟨ha, hb⟩
  rw [isNumeral, whole_append ha, fraction_append ha, List.all_eq_true.mpr hall, Bool.true_and,
    List.isEmpty_eq_false_iff.mpr hne]
  rfl

/-- They denote the integer of all digits, scaled down. -/
theorem value_point (b : List Char) :
    value (a ++ '.' :: b) = Nat.ofDigitChars 10 (a ++ b) 0 * 10 ^ (-(b.length : Int)) := by
  rw [value, whole_append ha, fraction_append ha]

theorem writes_point (hne : a ≠ []) {b : List Char} (hb : ∀ c ∈ b, c.isDigit = true) :
    Writes (a ++ '.' :: b) (Nat.ofDigitChars 10 (a ++ b) 0 * 10 ^ (-(b.length : Int))) where
  starts := by
    obtain ⟨c, rest, rfl, hc⟩ := exists_cons_of_isDigit ha hne
    exact ⟨c, rest ++ '.' :: b, rfl, hc⟩
  chars c hc := by
    rcases List.mem_append.mp hc with hc | hc
    · exact .inl (ha c hc)
    · exact (List.mem_cons.mp hc).symm.imp_left (hb c)
  numeral := isNumeral_point ha hb (List.append_ne_nil_of_left_ne_nil hne b)
  value_eq := value_point ha b

end

/-- A numeral is read as the nearest number. -/
theorem Writes.ofNumeral? {text : List Char} {q : Rat} (h : Writes text q) :
    Binary64.ofNumeral? text = some (.nearest q) := by
  rw [Binary64.ofNumeral?, if_pos h.numeral, h.value_eq]

end Numeral

/-! ## Decimals without exponents -/

open Numeral

theorem isDigit_toDigits (n : Nat) : ∀ c ∈ Nat.toDigits 10 n, c.isDigit = true :=
  fun _ => Nat.isDigit_of_mem_toDigits (by decide) (by decide)

/-- A positive integer has no zero in front. -/
theorem exists_toDigits_eq_cons {n : Nat} (h : n ≠ 0) :
    ∃ c cs, Nat.toDigits 10 n = c :: cs ∧ c ≠ '0' := by
  induction n using Nat.strongRecOn with
  | ind n ih =>
      rw [Nat.toDigits_eq_if (by decide)]
      split
      · exact ⟨_, [], rfl, fun hzero => h (Nat.digitChar_eq_zero.mp hzero)⟩
      · -- the first digit is that of the quotient
        rename_i hge
        obtain ⟨c, cs, hdigits, hc⟩ := ih (n / 10) (by omega) (by omega)
        exact ⟨c, cs ++ [(n % 10).digitChar], by rw [hdigits, List.cons_append], hc⟩

theorem isDigit_of_mem_replicate_zero {n : Nat} {c : Char} (h : c ∈ List.replicate n '0') :
    c.isDigit = true := by
  rw [List.eq_of_mem_replicate h]
  rfl

namespace Decimal

variable (d : Decimal)

theorem isDigit_digits : ∀ c ∈ d.digits, c.isDigit = true := isDigit_toDigits d.significand

theorem digits_ne_nil : d.digits ≠ [] := Nat.toDigits_ne_nil

variable {d}

/-- An integral decimal is the integer of its digits with zeros behind them. -/
theorem value_eq_ofDigitChars (h : 0 ≤ d.exponent) :
    d.value = Nat.ofDigitChars 10 (d.digits ++ List.replicate d.exponent.toNat '0') 0 := by
  rw [Nat.ofDigitChars_append, Nat.ofDigitChars_replicate_zero, ofDigitChars_digits, value,
    ← Int.toNat_of_nonneg h, zpow_natCast, Int.toNat_natCast, Nat.cast_mul, Nat.cast_pow, mul_comm]
  rfl

/-- The digits with zeros behind them are a numeral for an integral decimal. -/
theorem writes_integer (h : 0 ≤ d.exponent) :
    Writes (d.digits ++ List.replicate d.exponent.toNat '0') d.value := by
  have hall : ∀ c ∈ d.digits ++ List.replicate d.exponent.toNat '0', c.isDigit = true :=
    List.forall_mem_append.mpr ⟨d.isDigit_digits, fun c => isDigit_of_mem_replicate_zero⟩
  rw [value_eq_ofDigitChars h]
  exact writes_digits hall (List.append_ne_nil_of_left_ne_nil d.digits_ne_nil _)

/-- Zeros in front of the digits change nothing. -/
theorem ofDigitChars_zeros_append (d : Decimal) (n : Nat) :
    Nat.ofDigitChars 10 (['0'] ++ (List.replicate n '0' ++ d.digits)) 0 = d.significand := by
  have hinit : Nat.ofDigitChars 10 ['0'] 0 = 0 := rfl
  rw [Nat.ofDigitChars_append, Nat.ofDigitChars_append, hinit, Nat.ofDigitChars_replicate_zero,
    Nat.mul_zero, ofDigitChars_digits]

/-- So are the digits with a point that leaves as many of them behind it as the exponent says. -/
theorem writes_fraction {a b : List Char} (ha : ∀ c ∈ a, c.isDigit = true) (hne : a ≠ [])
    (hb : ∀ c ∈ b, c.isDigit = true) (hdigits : Nat.ofDigitChars 10 (a ++ b) 0 = d.significand)
    (hlength : (b.length : Int) = -d.exponent) : Writes (a ++ '.' :: b) d.value := by
  have hwrites := writes_point ha hne hb
  rwa [hdigits, hlength, neg_neg, ← value] at hwrites

variable (d)

/-- A decimal that is written with its point in place is a numeral for its value. -/
theorem writes_writePositional : Writes (Layout.writePositional false d) d.value := by
  rw [Layout.writePositional]
  split
  · rename_i hexponent
    rw [if_neg Bool.false_ne_true, List.append_nil]
    exact writes_integer hexponent
  · rename_i hexponent
    simp only
    split
    · -- the point stands between two digits
      rename_i hlead
      set lead := (d.digits.length + d.exponent).toNat with hlead_eq
      have htake : d.digits.take lead ≠ [] := by
        intro hnil
        rcases List.take_eq_nil_iff.mp hnil with hzero | hnil
        · omega
        · exact d.digits_ne_nil hnil
      refine writes_fraction (fun c hc => d.isDigit_digits c (List.mem_of_mem_take hc)) htake
        (fun c hc => d.isDigit_digits c (List.mem_of_mem_drop hc)) ?_ ?_
      · rw [List.take_append_drop, ofDigitChars_digits]
      · rw [List.length_drop]
        omega
    · -- all digits stand behind the point
      rename_i hlead
      set zeros := List.replicate (-(d.digits.length + d.exponent)).toNat '0' with hzeros
      have hzero : ∀ c ∈ ['0'], c.isDigit = true := List.forall_mem_singleton.mpr rfl
      have hbehind : ∀ c ∈ zeros ++ d.digits, c.isDigit = true :=
        List.forall_mem_append.mpr ⟨fun c => isDigit_of_mem_replicate_zero, d.isDigit_digits⟩
      have hlength : ((zeros ++ d.digits).length : Int) = -d.exponent := by
        rw [hzeros, List.length_append, List.length_replicate]
        omega
      exact writes_fraction hzero (List.cons_ne_nil _ _) hbehind (ofDigitChars_zeros_append d _) hlength

end Decimal

/-! ## The last digit -/

namespace Decimal

variable {d : Decimal}

/-- With a point, the text of a decimal ends in its last digit. -/
theorem getLast?_writePositional (h : d.exponent < 0) :
    (Layout.writePositional false d).getLast? = d.digits.getLast? := by
  rw [Layout.writePositional, if_neg (not_le.mpr h)]
  simp only
  split
  · rename_i hlead
    have hstop : ¬ d.digits.length ≤ (d.digits.length + d.exponent).toNat := by omega
    have hdrop : d.digits.drop (d.digits.length + d.exponent).toNat ≠ [] :=
      fun hnil => hstop (List.drop_eq_nil_iff.mp hnil)
    rw [List.append_cons, List.getLast?_append_of_ne_nil _ hdrop, List.getLast?_drop, if_neg hstop]
  · exact List.getLast?_append_of_ne_nil _ d.digits_ne_nil

/-- The text of a decimal does not end in `.0` when behind a point there is a digit other than zero to
end with. -/
theorem not_suffix_writePositional (h : d.exponent < 0 → d.significand % 10 ≠ 0) :
    ¬ ['.', '0'] <:+ Layout.writePositional false d := by
  intro hsuffix
  rcases lt_or_ge d.exponent 0 with hexponent | hexponent
  · have hlast : d.digits.getLast? = some '0' := by
      obtain ⟨front, hfront⟩ := hsuffix
      rw [← getLast?_writePositional hexponent, ← hfront,
        List.getLast?_append_of_ne_nil _ (List.cons_ne_nil _ _)]
      rfl
    obtain ⟨front, hfront⟩ := List.getLast?_eq_some_iff.mp hlast
    have hmod := ofDigitChars_concat_mod_ten front '0'
    rw [← hfront, ofDigitChars_digits] at hmod
    exact h hexponent hmod
  · -- without a point there are digits only
    have hpoint : '.' ∈ Layout.writePositional false d := hsuffix.mem List.mem_cons_self
    rw [Layout.writePositional, if_pos hexponent, if_neg Bool.false_ne_true, List.append_nil] at hpoint
    rcases List.mem_append.mp hpoint with hmem | hmem
    · exact absurd (d.isDigit_digits '.' hmem) (by decide)
    · exact absurd (isDigit_of_mem_replicate_zero hmem) (by decide)

end Decimal

/-! ## Displayed numbers -/

namespace Binary64

/-- The negative zero is the only finite number that changes when the positive zero is added. -/
theorem add_positive_zero {x : Binary64} (hx : x.isFinite = true) :
    x + zero false = if x = zero true then zero false else x := by
  split
  · rename_i hzero
    rw [hzero]
    decide +kernel
  · rename_i hzero
    by_cases hvalue : x.value = 0
    · have heq := eq_zero_of_value_eq_zero hx hvalue
      cases hsign : x.isNegative with
      | true => exact absurd (hsign ▸ heq) hzero
      | false =>
          rw [hsign] at heq
          rw [heq]
          decide +kernel
    · exact add_zero_of_ne false hx hvalue

theorem isFinite_add_positive_zero {x : Binary64} (hx : x.isFinite = true) :
    (x + zero false).isFinite = true := by
  rw [add_positive_zero hx]
  split
  · rfl
  · exact hx

theorem value_add_positive_zero {x : Binary64} (hx : x.isFinite = true) :
    (x + zero false).value = x.value := by
  rw [add_positive_zero hx]
  split
  · rename_i hzero
    rw [hzero, value_zero, value_zero]
  · rfl

/-- A displayed number has its sign when it is below zero, and only then. -/
theorem isNegative_add_zero {x : Binary64} (hx : x.isFinite = true) :
    (x + zero false).isNegative = decide (x < 0) := by
  by_cases hvalue : x.value = 0
  · have hlt : ¬ x < 0 := by rw [lt_zero_iff hx, hvalue]; exact lt_irrefl 0
    rw [decide_eq_false hlt, eq_zero_of_value_eq_zero hx hvalue]
    generalize x.isNegative = negative
    cases negative <;> decide +kernel
  · rw [add_zero_of_ne false hx hvalue, isNegative_eq_decide hvalue, decide_eq_decide, lt_zero_iff hx]

/-- The text of a finite number: its sign, and its shortest decimal. -/
theorem write_of_isFinite (layout : Layout) {x : Binary64} (hx : x.isFinite = true) :
    layout.write x = (if x.isNegative then ['-'] else []) ++
      layout.writeDecimal (.shortest layout.tie x) := by
  obtain ⟨negative, m, e, h, rfl⟩ := eq_finite_of_isFinite hx
  rfl

/-- The shortest decimal is read as the magnitude of the number. -/
theorem nearest_shortest (tie : Decimal.Tie) {x : Binary64} (hx : x.isFinite = true) :
    nearest (Decimal.shortest tie x).value = if x.isNegative then -x else x := by
  have hback := Decimal.ofMagnitude_shortest tie hx
  have hnonneg : 0 ≤ (Decimal.shortest tie x).value := by
    unfold Decimal.value
    positivity
  rw [nearest, if_neg (not_lt.mpr hnonneg)]
  cases hsign : x.isNegative with
  | false =>
      rw [hsign] at hback
      rw [hback, if_neg Bool.false_ne_true]
  | true =>
      rw [hsign] at hback
      rw [if_pos rfl]
      exact (neg_ofMagnitude true _).symm.trans (congrArg Neg.neg hback)

/-- **A displayed number is a numeral for its magnitude**, behind a sign when it is below zero. -/
theorem display_spec {x : Binary64} (hx : x.isFinite = true) :
    ∃ text q, Writes text q ∧ ¬ ['.', '0'] <:+ text ∧
      (¬ x < 0 → x.display = .ofList text ∧
        nearest q = if x = zero true then zero false else x) ∧
      (x < 0 → x.display = .ofList ('-' :: text) ∧ nearest q = -x) := by
  have hfinite := isFinite_add_positive_zero hx
  have hdisplay := congrArg String.ofList (write_of_isFinite .display hfinite)
  have hread := nearest_shortest .up hfinite
  rw [isNegative_add_zero hx] at hdisplay hread
  refine ⟨_, _, Decimal.writes_writePositional (.shortest .up (x + zero false)), ?_, ?_, ?_⟩
  · refine Decimal.not_suffix_writePositional fun hexponent => ?_
    refine Decimal.significand_shortest_mod_ten .up hfinite fun hvalue => ?_
    -- a zero is written without a point
    rw [Decimal.shortest, if_pos ((isZero_iff hfinite).mpr hvalue)] at hexponent
    exact absurd hexponent (lt_irrefl 0)
  · intro hlt
    rw [decide_eq_false hlt, if_neg Bool.false_ne_true] at hdisplay hread
    exact ⟨hdisplay, hread.trans (add_positive_zero hx)⟩
  · intro hlt
    have hne : x.value ≠ 0 := ((lt_zero_iff hx).mp hlt).ne
    rw [decide_eq_true hlt, if_pos rfl] at hdisplay hread
    refine ⟨hdisplay, hread.trans ?_⟩
    rw [add_zero_of_ne false hx hne]

end Binary64

end Quadra
