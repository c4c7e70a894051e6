import Quadra.Proofs.Decimal.Numeral
import Quadra.Proofs.Equation.Lexemes

set_option autoImplicit false

/-!
# What scanned numbers are worth

A number is scanned as a run of digits and points, with a digit first or right behind the first point.
Such a text denotes a rational unless it has a second point, so two points are all that keeps a
scanned number from a value, and its value is the rational correctly rounded: `number_value`.
-/

namespace Quadra.Equation

open Binary64 (ofNumeral? CorrectlyRounded)

/-- A scanned number is spelled as a number. -/
theorem isNumber_of_mem_scan {source : String} {token : Token} (h : token ∈ scan source)
    {text : List Char} (hkind : token.kind = .number text) : IsNumber text := by
  rw [scan, scanFrom_eq_tokensFrom] at h
  rcases List.mem_append.mp h with htoken | hfinish
  · obtain ⟨before, marked, after, -, -, hlexeme, -⟩ := standsIn_tokensFrom 0 _ token htoken
    rw [hkind] at hlexeme
    cases hlexeme with
    | number hnumber => exact hnumber
  · rw [List.mem_singleton.mp hfinish] at hkind
    cases hkind

namespace IsNumber

variable {text : List Char}

/-- A number has a digit. -/
theorem exists_isDigit (h : IsNumber text) : ∃ c ∈ text, c.isDigit = true := by
  obtain ⟨-, d, rest, hd, rfl | rfl⟩ := h
  · exact ⟨d, List.mem_cons_self, hd⟩
  · exact ⟨d, List.mem_cons_of_mem _ List.mem_cons_self, hd⟩

/-- With one point or none, a number denotes a rational. -/
theorem exists_denotes (h : IsNumber text) (hcount : text.count '.' < 2) :
    ∃ q, Numeral.Denotes text q :=
  Numeral.exists_denotes h.1 h.exists_isDigit hcount

/-- Only a second point keeps a number from having a value. -/
theorem ofNumeral?_eq_none_iff (h : IsNumber text) : ofNumeral? text = none ↔ 2 ≤ text.count '.' := by
  constructor
  · intro hnone
    by_contra hcount
    obtain ⟨q, hdenotes⟩ := h.exists_denotes (Nat.lt_of_not_le hcount)
    rw [hdenotes.ofNumeral?] at hnone
    cases hnone
  · intro hcount
    rw [ofNumeral?, if_neg]
    intro hnumeral
    exact Nat.not_lt.mpr hcount (Numeral.count_point_lt_of_isNumeral hnumeral)

end IsNumber

/-- **A scanned number has the right value**, for texts of any length: none when it has two points or more,
and else what it denotes correctly rounded. The value is not negative: what underflows is the zero
without a sign, and what overflows is the positive infinity. -/
theorem number_value {source : String} {token : Token} (htoken : token ∈ scan source) {text : List Char}
    (hkind : token.kind = .number text) :
    (ofNumeral? text = none ↔ 2 ≤ text.count '.') ∧
      (text.count '.' < 2 → ∃ q x, Numeral.Denotes text q ∧ ofNumeral? text = some x ∧
        CorrectlyRounded q x ∧ x.isNaN = false ∧ x.isNegative = false) := by
  have hnumber := isNumber_of_mem_scan htoken hkind
  refine ⟨hnumber.ofNumeral?_eq_none_iff, fun hcount => ?_⟩
  obtain ⟨q, hdenotes⟩ := hnumber.exists_denotes hcount
  obtain ⟨hnan, hsign⟩ := Binary64.nearest_of_nonneg hdenotes.nonneg
  exact ⟨q, .nearest q, hdenotes, hdenotes.ofNumeral?, Binary64.correctlyRounded_nearest q, hnan, hsign⟩

/-- In `.5 1.2.3` the first number is one half and the second has no value. -/
theorem number_value_half :
    (⟨.number ['.', '5'], ⟨0, 2⟩⟩ ∈ scan ".5 1.2.3" ∧
      ∃ q x, Numeral.Denotes ['.', '5'] q ∧ ofNumeral? ['.', '5'] = some x ∧
        CorrectlyRounded q x ∧ x.isNaN = false ∧ x.isNegative = false) ∧
    ⟨.number ['1', '.', '2', '.', '3'], ⟨3, 8⟩⟩ ∈ scan ".5 1.2.3" ∧
      ofNumeral? ['1', '.', '2', '.', '3'] = none := by
  have hhalf : (⟨.number ['.', '5'], ⟨0, 2⟩⟩ : Token) ∈ scan ".5 1.2.3" := by decide +kernel
  have htwice : (⟨.number ['1', '.', '2', '.', '3'], ⟨3, 8⟩⟩ : Token) ∈ scan ".5 1.2.3" := by
    decide +kernel
  exact ⟨⟨hhalf, (number_value hhalf rfl).2 (by decide)⟩,
    htwice, (number_value htwice rfl).1.mpr (by decide)⟩

end Quadra.Equation
