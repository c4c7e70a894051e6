import Mathlib.Data.Nat.Digits.Defs
import Quadra.Decimal.Fixed
import Quadra.Proofs.Binary64.Nearest
import Quadra.Proofs.Decimal.Layout

set_option autoImplicit false

/-!
# Numbers in decimal places

A number with a fixed count of decimal places is a sign, digits without a needless zero in front, a point
and the digits of the places (`Written`). What is written for a number is the multiple of the last place
nearest to it, and a half goes to an even last digit (`IsRounded`): `fixed_written`. All digits are zero for
the numbers within half a unit of the last place, and the sign of a negative one of them is written all the
same: `fixed_eq_negative_zero_iff`.
-/

namespace Quadra

namespace Fixed

/-- A number with a count of decimal places: whether it has a sign, its digits in front of the point, the
first of which is a zero only when it is the only one, and those behind it. -/
@[ext] structure Written (places : Nat) where
  negative : Bool
  whole : List Char
  rest : List Char
  isDigit_whole : ∀ c ∈ whole, c.isDigit = true
  whole_ne_nil : whole ≠ []
  whole_eq_zero : whole.head? = some '0' → whole = ['0']
  isDigit_rest : ∀ c ∈ rest, c.isDigit = true
  length_rest : rest.length = places

namespace Written

variable {places : Nat} (w : Written places)

/-- The digits and the point. -/
def magnitude : List Char := w.whole ++ '.' :: w.rest

/-- The text of the number. -/
def text : List Char := (if w.negative then ['-'] else []) ++ w.magnitude

/-- The number in units of the last place, without its sign. It is even when its last digit is. -/
def units : Nat := Nat.ofDigitChars 10 (w.whole ++ w.rest) 0

/-- The number that the text stands for. -/
def value : Rat := (if w.negative then -(w.units : Rat) else w.units) / 10 ^ places

/-- The number is the multiple of its last place nearest to `q`, and of two that are as near it is the one
with the even last digit. -/
structure IsRounded (q : Rat) : Prop where
  le : ∀ n : Int, |w.value - q| ≤ |n / 10 ^ places - q|
  even : ∀ n : Int, n / 10 ^ places ≠ w.value → |n / 10 ^ places - q| = |w.value - q| → w.units % 2 = 0

/-! ## Texts -/

theorem isDigit_or_point : ∀ c ∈ w.magnitude, c.isDigit = true ∨ c = '.' := by
  intro c hc
  rcases List.mem_append.mp hc with hc | hc
  · exact .inl (w.isDigit_whole c hc)
  · exact (List.mem_cons.mp hc).symm.imp_left (w.isDigit_rest c)

theorem minus_not_mem_magnitude : '-' ∉ w.magnitude := by
  intro hmem
  exact absurd (w.isDigit_or_point '-' hmem) (by decide)

/-- A text is that of one number only. -/
theorem text_injective {w w' : Written places} (h : w.text = w'.text) : w = w' := by
  have hnegative : ∀ v : Written places, v.negative = true ↔ '-' ∈ v.text := by
    intro v
    cases hv : v.negative with
    | false => simp [text, hv, v.minus_not_mem_magnitude]
    | true => simp [text, hv]
  -- digits and a point have no minus, so the sign is seen in the text
  have hsign : w.negative = w'.negative := by
    rw [Bool.eq_iff_iff, hnegative, hnegative, h]
  have hmagnitude : w.magnitude = w'.magnitude := by
    rw [text, text, hsign] at h
    exact List.append_cancel_left h
  have hwhole := congrArg Numeral.whole hmagnitude
  have hrest := congrArg Numeral.fraction hmagnitude
  rw [magnitude, magnitude, Numeral.whole_append w.isDigit_whole, Numeral.whole_append w'.isDigit_whole]
    at hwhole
  rw [magnitude, magnitude, Numeral.fraction_append w.isDigit_whole,
    Numeral.fraction_append w'.isDigit_whole] at hrest
  exact Written.ext hsign hwhole hrest

/-! ## Numbers by their units -/

end Written

theorem isDigit_padded (width n : Nat) : ∀ c ∈ padded width n, c.isDigit = true :=
  List.forall_mem_append.mpr ⟨fun _ => isDigit_of_mem_replicate_zero, isDigit_toDigits n⟩

theorem length_padded {width n : Nat} (hwidth : 0 < width) (h : n < 10 ^ width) :
    (padded width n).length = width := by
  have hle := Nat.toDigits_length 10 n width hwidth h
  rw [padded, List.length_append, List.length_replicate]
  omega

/-- Zeros in front do not change what digits stand for. -/
theorem ofDigitChars_padded (width n : Nat) : Nat.ofDigitChars 10 (padded width n) 0 = n := by
  rw [padded, Nat.ofDigitChars_append, Nat.ofDigitChars_replicate_zero, Nat.mul_zero,
    Nat.ofDigitChars_ten_toDigits]

theorem toDigits_eq_zero {n : Nat} (h : (Nat.toDigits 10 n).head? = some '0') :
    Nat.toDigits 10 n = ['0'] := by
  by_cases hn : n = 0
  · rw [hn]
    rfl
  · obtain ⟨c, cs, hdigits, hc⟩ := exists_toDigits_eq_cons hn
    rw [hdigits, List.head?_cons, Option.some.injEq] at h
    exact absurd h hc

section

variable {places : Nat} (hplaces : 0 < places)

/-- What is written for a number of units. -/
def Written.ofUnits (negative : Bool) (n : Nat) : Written places where
  negative := negative
  whole := Nat.toDigits 10 (n / 10 ^ places)
  rest := padded places (n % 10 ^ places)
  isDigit_whole := isDigit_toDigits _
  whole_ne_nil := Nat.toDigits_ne_nil
  whole_eq_zero := toDigits_eq_zero
  isDigit_rest := isDigit_padded _ _
  length_rest := length_padded hplaces (Nat.mod_lt _ (by positivity))

theorem Written.magnitude_ofUnits (negative : Bool) (n : Nat) :
    (Written.ofUnits hplaces negative n).magnitude = writeScaled places n := rfl

@[simp] theorem Written.units_ofUnits (negative : Bool) (n : Nat) :
    (Written.ofUnits hplaces negative n).units = n := by
  have hlength := length_padded hplaces (Nat.mod_lt n (show 0 < 10 ^ places by positivity))
  show Nat.ofDigitChars 10 (Nat.toDigits 10 (n / 10 ^ places) ++ padded places (n % 10 ^ places)) 0 = n
  rw [Nat.ofDigitChars_append, Nat.ofDigitChars_eq_ofDigitChars_zero, hlength, ofDigitChars_padded,
    Nat.ofDigitChars_ten_toDigits]
  exact Nat.div_add_mod n _

end

/-! ## Rounding -/

/-- The sign of the text in front of an integer. -/
def Written.signed {places : Nat} (w : Written places) (n : Int) : Int := if w.negative then -n else n

@[simp] theorem Written.signed_signed {places : Nat} (w : Written places) (n : Int) :
    w.signed (w.signed n) = n := by
  unfold signed
  split
  · exact neg_neg n
  · rfl

theorem Written.value_eq {places : Nat} (w : Written places) :
    w.value = (w.signed w.units : Rat) / 10 ^ places := by
  unfold value signed
  split
  · rw [Int.cast_neg, Int.cast_natCast]
  · rw [Int.cast_natCast]

section

variable {places : Nat} {w : Written places} {q : Rat} (hneg : w.negative = true → q ≤ 0)
  (hpos : w.negative = false → 0 ≤ q)

include hneg hpos

/-- Distances from `q` are those from its magnitude in units of the last place, scaled down. -/
theorem Written.abs_div_sub (n : Int) :
    |(n : Rat) / 10 ^ places - q| = |(w.signed n : Rat) - |q| * 10 ^ places| / 10 ^ places := by
  have hpow : (0 : Rat) < 10 ^ places := by positivity
  have hscaled : |(n : Rat) / 10 ^ places - q| = |(n : Rat) - q * 10 ^ places| / 10 ^ places := by
    rw [← abs_of_pos hpow, ← abs_div, abs_of_pos hpow, sub_div, mul_div_cancel_right₀ q hpow.ne']
  rw [hscaled, signed]
  cases hsign : w.negative with
  | false => rw [if_neg Bool.false_ne_true, abs_of_nonneg (hpos hsign)]
  | true =>
      rw [if_pos rfl, abs_of_nonpos (hneg hsign), Int.cast_neg, ← abs_neg]
      ring_nf

/-- Rounding the magnitude to an integer rounds the number to a multiple of its last place. -/
theorem Written.isRounded (hunits : (w.units : Int) = nearestInteger (|q| * 10 ^ places)) :
    w.IsRounded q := by
  have hpow : (0 : Rat) < 10 ^ places := by positivity
  have hdistance := Written.abs_div_sub hneg hpos
  refine ⟨fun n => ?_, fun n hne htie => ?_⟩
  · rw [w.value_eq, hdistance, hdistance, signed_signed, hunits]
    exact div_le_div_of_nonneg_right (abs_nearestInteger_sub_le_abs _ _) hpow.le
  · rw [w.value_eq] at hne
    rw [w.value_eq, hdistance, hdistance, signed_signed, hunits] at htie
    -- another multiple of the last place comes from another integer
    have hother : w.signed n ≠ nearestInteger (|q| * 10 ^ places) := by
      intro heq
      rw [← hunits] at heq
      exact hne (by rw [← heq, signed_signed])
    have heven := nearestInteger_even_of_tie hother ((div_left_inj' hpow.ne').mp htie)
    omega

end

/-! ## What is written for a number -/

/-- The units of the last place that are written. -/
def unitsOf (places : Nat) (x : Binary64) : Nat := (nearestInteger (|x.value| * 10 ^ places)).toNat

theorem nearestInteger_nonneg {q : Rat} (hq : 0 ≤ q) : 0 ≤ nearestInteger q := by
  have hmono := nearestInteger_mono hq
  rwa [show nearestInteger 0 = 0 from nearestInteger_intCast 0] at hmono

theorem cast_unitsOf (places : Nat) (x : Binary64) :
    (unitsOf places x : Int) = nearestInteger (|x.value| * 10 ^ places) :=
  Int.toNat_of_nonneg (nearestInteger_nonneg (by positivity))

/-- No units are written for the numbers within half a unit of zero. -/
theorem unitsOf_eq_zero_iff (places : Nat) (x : Binary64) :
    unitsOf places x = 0 ↔ |x.value| * 10 ^ places ≤ 1 / 2 := by
  have hcast := cast_unitsOf places x
  generalize hq : |x.value| * 10 ^ places = q at hcast
  have hnonneg : 0 ≤ q := hq ▸ by positivity
  constructor
  · intro hzero
    have hhalf := abs_nearestInteger_sub_le q
    rw [← hcast, hzero, Nat.cast_zero, Int.cast_zero, zero_sub, abs_neg, abs_of_nonneg hnonneg] at hhalf
    exact hhalf
  · intro hle
    rcases lt_or_eq_of_le hle with hlt | rfl
    · have hbelow := nearestInteger_le (n := 0) (by rw [Int.cast_zero, zero_add]; exact hlt)
      omega
    · -- a half goes to zero, which is even
      have htie : nearestInteger (1 / 2) = 0 := by decide +kernel
      omega

theorem write_eq {places : Nat} (hplaces : 0 < places) {x : Binary64} (hx : x.isFinite = true) :
    write places x = (Written.ofUnits hplaces x.isNegative (unitsOf places x)).text := by
  have hscaled : x.value.abs * ((Nat.pow 10 places : Nat) : Rat) = |x.value| * 10 ^ places := by
    rw [Binary64.ratAbs_eq, Nat.pow_eq, Nat.cast_pow, Nat.cast_ofNat]
  rw [Written.text, Written.magnitude_ofUnits, unitsOf, ← hscaled]
  obtain ⟨negative, m, e, h, rfl⟩ := Binary64.eq_finite_of_isFinite hx
  rfl

end Fixed

namespace Binary64

open Fixed

variable {x : Binary64} (hx : x.isFinite = true)

include hx

/-- A number with six decimal places has a sign when it is below zero, and its digits are its magnitude in
millionths. -/
theorem fixed_eq : x.fixed =
    .ofList (Written.ofUnits (by decide : 0 < 6) (decide (x < 0)) (unitsOf 6 x)).text := by
  rw [fixed, write_eq (by decide) (isFinite_add_positive_zero hx), isNegative_add_zero hx, unitsOf,
    value_add_positive_zero hx, unitsOf]

/-- **A number with six decimal places is the nearest millionth**, with a sign when it is below zero. -/
theorem fixed_written : ∃ w : Written 6, x.fixed = .ofList w.text ∧ w.IsRounded x.value ∧
    (w.negative = true ↔ x < 0) := by
  refine ⟨_, fixed_eq hx, Written.isRounded ?_ ?_ ?_, decide_eq_true_iff⟩
  · intro hneg
    exact ((lt_zero_iff hx).mp (of_decide_eq_true hneg)).le
  · intro hpos
    exact not_lt.mp (mt (lt_zero_iff hx).mpr (of_decide_eq_false hpos))
  · rw [Written.units_ofUnits, cast_unitsOf]

/-- A negative zero is written for the negative numbers down to half a millionth below zero. -/
theorem fixed_eq_negative_zero_iff :
    x.fixed = "-0.000000" ↔ -(1 / 2000000) ≤ x.value ∧ x.value < 0 := by
  have hzero : "-0.000000" = String.ofList (Written.ofUnits (by decide : 0 < 6) true 0).text := by
    decide +kernel
  rw [fixed_eq hx, hzero, String.ofList_inj]
  constructor
  · intro h
    have heq := Written.text_injective h
    have hunits := congrArg Written.units heq
    rw [Written.units_ofUnits, Written.units_ofUnits, unitsOf_eq_zero_iff] at hunits
    have hlt : x.value < 0 := (lt_zero_iff hx).mp (of_decide_eq_true (congrArg Written.negative heq))
    rw [abs_of_neg hlt] at hunits
    constructor <;> linarith
  · rintro ⟨hlow, hlt⟩
    have hunits : unitsOf 6 x = 0 := by
      rw [unitsOf_eq_zero_iff, abs_of_neg hlt]
      linarith
    rw [hunits, decide_eq_true ((lt_zero_iff hx).mpr hlt)]

end Binary64

end Quadra
