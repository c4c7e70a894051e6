import Quadra.Proofs.Binary64.Nearest
import Quadra.Proofs.Decimal.Layout

set_option autoImplicit false

/-!
# What numerals denote

`Denotes` says what rational a numeral stands for, and a numeral is read as the number nearest to it
(`Denotes.ofNumeral?`). Of the texts of digits and points that have a digit, the numerals are those with
one point or none: `exists_denotes`, `count_point_lt_of_isNumeral`.
-/

namespace Quadra

namespace Binary64

/-- What a rational that is not negative is rounded to is a number and not negative, zero and infinity
included. -/
theorem nearest_of_nonneg {q : Rat} (hq : 0 ≤ q) :
    (nearest q).isNaN = false ∧ (nearest q).isNegative = false := by
  rw [nearest, if_neg (not_lt.mpr hq)]
  refine ⟨not_isNaN_ofMagnitude false q, ?_⟩
  rcases lt_or_ge q overflowBound with hsmall | hlarge
  · exact ((ofMagnitude_spec false hq).2 hsmall).2
  · have hinfinite : (ofMagnitude false q).isFinite = false := by
      rw [← Bool.not_eq_true, (ofMagnitude_spec false hq).1]
      exact not_lt.mpr hlarge
    rw [eq_infinite_of_ofMagnitude hinfinite]
    rfl

end Binary64

namespace Numeral

/-- The text stands for this rational: digits for the integer that they spell, and digits behind a point
for what they spell over a power of ten. Digits may be missing on one side of the point. -/
inductive Denotes : List Char → Rat → Prop
  | integer {a : List Char} (hne : a ≠ []) (ha : ∀ c ∈ a, c.isDigit = true) :
      Denotes a (Nat.ofDigitChars 10 a 0)
  | point {a b : List Char} (hne : a ++ b ≠ []) (ha : ∀ c ∈ a, c.isDigit = true)
      (hb : ∀ c ∈ b, c.isDigit = true) :
      Denotes (a ++ '.' :: b) (Nat.ofDigitChars 10 a 0 + Nat.ofDigitChars 10 b 0 / 10 ^ b.length)

namespace Denotes

variable {text : List Char} {q : Rat}

theorem nonneg (h : Denotes text q) : 0 ≤ q := by
  cases h <;> positivity

/-- The digits of a numeral, read as one integer and scaled down, are what it denotes. -/
theorem value_eq (h : Denotes text q) : value text = q := by
  cases h with
  | integer hne ha => exact (writes_digits ha hne).value_eq
  | @point a b hne ha hb =>
      rw [value_point ha, Nat.ofDigitChars_append, Nat.ofDigitChars_eq_ofDigitChars_zero, zpow_neg,
        zpow_natCast]
      push_cast
      field_simp

theorem isNumeral (h : Denotes text q) : isNumeral text = true := by
  cases h with
  | integer hne ha => exact (writes_digits ha hne).numeral
  | point hne ha hb => exact isNumeral_point ha hb hne

/-- A numeral is read as the nearest number. -/
theorem ofNumeral? (h : Denotes text q) : Binary64.ofNumeral? text = some (.nearest q) := by
  rw [Binary64.ofNumeral?, if_pos h.isNumeral, h.value_eq]

end Denotes

/-! ## Digits and points -/

theorem isDigit_of_ne_point {a : List Char} (h : ∀ c ∈ a, c.isDigit = true ∨ c = '.')
    (hpoint : '.' ∉ a) : ∀ c ∈ a, c.isDigit = true := by
  intro c hc
  refine (h c hc).resolve_right ?_
  rintro rfl
  exact hpoint hc

/-- A character of the part in front of the first point is no point. -/
theorem point_not_mem_whole (text : List Char) : '.' ∉ whole text := fun h =>
  absurd (List.mem_takeWhile_imp h) (by decide)

section

variable {text : List Char} (hchars : ∀ c ∈ text, c.isDigit = true ∨ c = '.')

include hchars

/-- A text of digits and at most one point denotes a rational. -/
theorem exists_denotes (hdigit : ∃ c ∈ text, c.isDigit = true) (hcount : text.count '.' < 2) :
    ∃ q, Denotes text q := by
  by_cases hpoint : '.' ∈ text
  · have htext := whole_append_fraction text hpoint
    have hwhole := point_not_mem_whole text
    generalize whole text = a at htext hwhole
    generalize fraction text = b at htext
    subst htext
    obtain ⟨ha, hb⟩ := List.forall_mem_append.mp hchars
    have hfraction : '.' ∉ b := by
      rw [List.count_append, List.count_cons_self] at hcount
      exact List.count_eq_zero.mp (by omega)
    refine ⟨_, .point ?_ (isDigit_of_ne_point ha hwhole)
      (isDigit_of_ne_point (List.forall_mem_cons.mp hb).2 hfraction)⟩
    -- the digit stands on one of the sides
    obtain ⟨c, hc, hdigit⟩ := hdigit
    rintro hnil
    obtain ⟨rfl, rfl⟩ := List.append_eq_nil_iff.mp hnil
    obtain rfl := List.mem_singleton.mp hc
    exact absurd hdigit (by decide)
  · obtain ⟨c, hc, -⟩ := hdigit
    exact ⟨_, .integer (List.ne_nil_of_mem hc) (isDigit_of_ne_point hchars hpoint)⟩

end

/-- A text with two points is no numeral. -/
theorem count_point_lt_of_isNumeral {text : List Char} (h : isNumeral text = true) :
    text.count '.' < 2 := by
  by_cases hpoint : '.' ∈ text
  · have htext := whole_append_fraction text hpoint
    rw [isNumeral, Bool.and_eq_true, List.all_append, Bool.and_eq_true] at h
    have hfraction : '.' ∉ fraction text := fun hmem =>
      absurd (List.all_eq_true.mp h.1.2 _ hmem) (by decide)
    rw [← htext, List.count_append, List.count_cons_self, List.count_eq_zero.mpr hfraction,
      List.count_eq_zero.mpr (point_not_mem_whole text)]
    omega
  · rw [List.count_eq_zero.mpr hpoint]
    omega

end Numeral

end Quadra
