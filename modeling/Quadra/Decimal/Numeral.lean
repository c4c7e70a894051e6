import Quadra.Binary64.Rounding

set_option autoImplicit false

/-!
# Decimal numerals

A numeral is a text of ASCII digits with at most one point, before, between or after them. It
denotes a rational, which `Binary64.ofNumeral?` rounds once, whatever the length of the text.
-/

namespace Quadra

namespace Numeral

/-- The digits in front of the point. -/
def whole (text : List Char) : List Char := text.takeWhile (· != '.')

/-- What stands behind the first point. -/
def fraction (text : List Char) : List Char := (text.dropWhile (· != '.')).drop 1

/-- Whether the text is a numeral: digits only on both sides of the point, and at least one. -/
def isNumeral (text : List Char) : Bool :=
  (whole text ++ fraction text).all Char.isDigit && !(whole text ++ fraction text).isEmpty

/-- The rational that a numeral denotes: its digits read as one integer, scaled down once for each
digit behind the point. -/
def value (text : List Char) : Rat :=
  Nat.ofDigitChars 10 (whole text ++ fraction text) 0 * 10 ^ (-((fraction text).length : Int))

theorem whole_append_fraction (text : List Char) (h : '.' ∈ text) :
    whole text ++ '.' :: fraction text = text := by
  induction text with
  | nil => simp at h
  | cons c cs ih =>
      by_cases hc : c = '.'
      · subst hc; simp [whole, fraction]
      · have : '.' ∈ cs := by
          rcases List.mem_cons.mp h with h | h
          · exact absurd h.symm hc
          · exact h
        simpa [whole, fraction, hc] using ih this

end Numeral

/-- The number that a numeral denotes, rounded to nearest; `none` for any other text. -/
def Binary64.ofNumeral? (text : List Char) : Option Binary64 :=
  if Numeral.isNumeral text then some (.nearest (Numeral.value text)) else none

end Quadra
