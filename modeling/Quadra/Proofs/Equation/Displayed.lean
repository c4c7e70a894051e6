import Quadra.Proofs.Decimal.Layout
import Quadra.Proofs.Equation.Scan

set_option autoImplicit false

/-!
# Displayed numbers are scanned again

The text of a finite number is one number token, behind a minus sign when the number is below zero,
and the value of this token is the number without its sign: `scan_display`.
-/

namespace Quadra.Equation

open Binary64 (zero nearest ofNumeral? display_spec lt_zero_iff nearest_zero value_opposite
  value_zero)

/-- The tokens of a text that is a number: the number at this byte offset, and the end behind it. -/
def numberTokens (offset : Nat) (text : List Char) : List Token :=
  let stop := offset + Text.byteLength text
  [⟨.number text, ⟨offset, stop⟩⟩, ⟨.finish, ⟨stop, stop⟩⟩]

/-- A numeral that starts with a digit goes on as a number. -/
theorem exists_cons_of_writes {text : List Char} {q : Rat} (h : Numeral.Writes text q) :
    ∃ c rest, text = c :: rest ∧ ¬ Text.isBlank c = true ∧ c.isDigit = true ∧
      ∀ d ∈ rest, isNumberChar d = true := by
  obtain ⟨c, rest, rfl, hdigit⟩ := h.starts
  refine ⟨c, rest, rfl, ?_, hdigit, fun d hd => ?_⟩
  · rw [isBlank_eq_false_of_isDigit hdigit]
    exact Bool.false_ne_true
  · rw [isNumberChar, Bool.or_eq_true, beq_iff_eq]
    exact h.chars d (List.mem_cons_of_mem c hd)

/-- So it is scanned as a whole. -/
theorem scanFrom_writes (offset : Nat) {text : List Char} {q : Rat} (h : Numeral.Writes text q) :
    scanFrom offset text = numberTokens offset text := by
  obtain ⟨c, rest, rfl, hblank, hdigit, hrest⟩ := exists_cons_of_writes h
  have hnumber : startsNumber c rest = true := by rw [startsNumber, hdigit, Bool.true_or]
  rw [scanFrom, if_neg hblank, if_pos hnumber, List.takeWhile_eq_self_iff.mpr hrest,
    List.dropWhile_eq_nil_iff.mpr hrest]
  simp only [scanFrom, numberTokens]

theorem scanFrom_minus (offset : Nat) (rest : List Char) :
    scanFrom offset ('-' :: rest) =
      ⟨.minus, ⟨offset, offset + 1⟩⟩ :: scanFrom (offset + 1) rest := by
  rw [scanFrom, if_neg (by decide), if_neg]
  · rfl
  · rw [startsNumber]
    exact Bool.false_ne_true

/-- The text `-0` is displayed for no number, since a numeral starts with a digit and a number below zero
does not read as zero. -/
theorem display_ne_negative_zero {x : Binary64} (hx : x.isFinite = true) : x.display ≠ "-0" := by
  intro hzero
  obtain ⟨text, q, hwrites, -, hunsigned, hsigned⟩ := display_spec hx
  by_cases hlt : x < 0
  · obtain ⟨hdisplay, hread⟩ := hsigned hlt
    have hchars : '-' :: text = ['-', '0'] := String.ofList_inj.mp (hdisplay.symm.trans hzero)
    obtain rfl : text = ['0'] := (List.cons.inj hchars).2
    have hvalue : q = 0 := hwrites.value_eq.symm.trans (by decide +kernel)
    rw [hvalue, nearest_zero] at hread
    have hopposite : (-x).value = 0 := by rw [← hread, value_zero]
    rw [value_opposite, neg_eq_zero] at hopposite
    exact ((lt_zero_iff hx).mp hlt).ne hopposite
  · have hchars : text = ['-', '0'] := String.ofList_inj.mp ((hunsigned hlt).1.symm.trans hzero)
    obtain ⟨c, rest, rfl, hdigit⟩ := hwrites.starts
    rw [(List.cons.inj hchars).1] at hdigit
    cases hdigit

/-- **Displayed numbers are read back**: the text of a finite number is scanned as one number token,
behind a minus sign when the number is below zero, and the token has the value of the number
without this sign, where the negative zero counts as zero. The text has digits and points only, so
that there is no exponent, it does not end in `.0`, and it is not that of a negative zero. -/
theorem scan_display {x : Binary64} (hx : x.isFinite = true) :
    ∃ text, (∀ c ∈ text, c.isDigit = true ∨ c = '.') ∧ ¬ ['.', '0'] <:+ text ∧
      x.display ≠ "-0" ∧
      (¬ x < 0 → x.display = .ofList text ∧ scan x.display = numberTokens 0 text ∧
        ofNumeral? text = some (if x = zero true then zero false else x)) ∧
      (x < 0 → x.display = .ofList ('-' :: text) ∧
        scan x.display = ⟨.minus, ⟨0, 1⟩⟩ :: numberTokens 1 text ∧
        ofNumeral? text = some (-x)) := by
  obtain ⟨text, q, hwrites, hsuffix, hunsigned, hsigned⟩ := display_spec hx
  refine ⟨text, hwrites.chars, hsuffix, display_ne_negative_zero hx, fun hlt => ?_, fun hlt => ?_⟩
  · obtain ⟨hdisplay, hread⟩ := hunsigned hlt
    refine ⟨hdisplay, ?_, hread ▸ hwrites.ofNumeral?⟩
    rw [hdisplay, scan, String.toList_ofList, scanFrom_writes 0 hwrites]
  · obtain ⟨hdisplay, hread⟩ := hsigned hlt
    refine ⟨hdisplay, ?_, hread ▸ hwrites.ofNumeral?⟩
    rw [hdisplay, scan, String.toList_ofList, scanFrom_minus, scanFrom_writes 1 hwrites]

/-- The number nearest to `-9.3` is displayed so, and read back. -/
theorem scan_display_tenths :
    (nearest (-93 / 10)).display = "-9.3" ∧
      scan "-9.3" = ⟨.minus, ⟨0, 1⟩⟩ :: numberTokens 1 ['9', '.', '3'] ∧
      ofNumeral? ['9', '.', '3'] = some (-nearest (-93 / 10)) := by
  have htext : (nearest (-93 / 10)).display = "-9.3" := by decide +kernel
  obtain ⟨text, -, -, -, -, hsigned⟩ := scan_display (x := nearest (-93 / 10)) (by decide +kernel)
  obtain ⟨hdisplay, hscan, hread⟩ := hsigned (by decide +kernel)
  have hchars : ['-', '9', '.', '3'] = '-' :: text := String.ofList_inj.mp (htext.symm.trans hdisplay)
  obtain rfl : ['9', '.', '3'] = text := (List.cons.inj hchars).2
  exact ⟨htext, htext ▸ hscan, hread⟩

end Quadra.Equation
