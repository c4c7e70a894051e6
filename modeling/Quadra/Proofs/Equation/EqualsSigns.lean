import Quadra.Proofs.Equation.Faults
import Quadra.Proofs.Equation.Layout

set_option autoImplicit false

/-!
# Equals signs

Every `=` of a text is a token by itself, whatever stands around it, and no other token is one. So it is
the characters of a text that decide whether it has the format of an equation, and which part of it is
marked when it has not: `format_fault_iff`.
-/

namespace Quadra.Equation

open Text

/-! ## The tokens of equals signs -/

/-- A text is scanned in parts around an `=`. -/
theorem tokensFrom_append_equals (offset : Nat) (front back : List Char) :
    tokensFrom offset (front ++ '=' :: back) =
      tokensFrom offset front ++
        ⟨.equals, ⟨offset + byteLength front, offset + byteLength front + 1⟩⟩ ::
          tokensFrom (offset + byteLength front + 1) back := by
  have hhead : ∀ c ∈ ('=' :: back).head?, isNumberChar c = false := by
    intro c hc
    obtain rfl := Option.some.inj hc
    rfl
  have hblank : ¬ isBlank '=' = true := by decide
  have hnumber : ¬ startsNumber '=' back = true := Bool.false_ne_true
  rw [tokensFrom_append offset front _ (isBoundary_of_head? offset front hhead),
    tokensFrom_of_symbol _ hblank hnumber]
  rfl

/-- The tokens of a text that are an `=`. -/
def equalsTokens (offset : Nat) (text : List Char) : List Token :=
  (tokensFrom offset text).filter fun token => token.kind == .equals

/-- An `=` among the tokens is one of the text. -/
theorem equalsTokens_of_notMem (offset : Nat) {text : List Char} (h : '=' ∉ text) :
    equalsTokens offset text = [] := by
  refine List.filter_eq_nil_iff.mpr fun token htoken hkind => ?_
  obtain ⟨before, marked, after, rfl, -, hlexeme, -⟩ := standsIn_tokensFrom offset _ token htoken
  rw [beq_iff_eq.mp hkind] at hlexeme
  cases hlexeme with
  | equals => exact h (by simp)

theorem equalsTokens_append (offset : Nat) {front : List Char} (h : '=' ∉ front) (back : List Char) :
    equalsTokens offset (front ++ '=' :: back) =
      ⟨.equals, ⟨offset + byteLength front, offset + byteLength front + 1⟩⟩ ::
        equalsTokens (offset + byteLength front + 1) back := by
  have hfront := equalsTokens_of_notMem offset h
  unfold equalsTokens at hfront ⊢
  rw [tokensFrom_append_equals, List.filter_append, hfront]
  rfl

/-- There are as many tokens `=` as there are characters. -/
theorem length_equalsTokens (offset : Nat) (text : List Char) :
    (equalsTokens offset text).length = text.count '=' := by
  induction hcount : text.count '=' generalizing offset text with
  | zero => rw [equalsTokens_of_notMem offset (List.count_eq_zero.mp hcount), List.length_nil]
  | succ count ih =>
      have hmem : '=' ∈ text := List.count_pos_iff.mp (by omega)
      obtain ⟨front, back, rfl, hfront⟩ := List.eq_append_cons_of_mem hmem
      rw [List.count_append, List.count_eq_zero.mpr hfront, List.count_cons_self] at hcount
      rw [equalsTokens_append offset hfront, List.length_cons, ih _ back (by omega)]

/-! ## The format of an equation -/

/-- What is marked in a text without exactly one `=`: all of it, or its second `=`. -/
inductive FormatSpan (text : List Char) : Span → Prop
  | missing (h : '=' ∉ text) : FormatSpan text ⟨0, byteLength text⟩
  | second {a b c : List Char} (htext : text = a ++ '=' :: (b ++ '=' :: c)) (ha : '=' ∉ a)
      (hb : '=' ∉ b) :
      FormatSpan text ⟨byteLength (a ++ '=' :: b), byteLength (a ++ '=' :: b) + 1⟩

/-- A text has no `=`, or one, or a second one. -/
theorem equals_cases (text : List Char) :
    '=' ∉ text ∨ (∃ a b, text = a ++ '=' :: b ∧ '=' ∉ a ∧ '=' ∉ b) ∨
      ∃ a b c, text = a ++ '=' :: (b ++ '=' :: c) ∧ '=' ∉ a ∧ '=' ∉ b := by
  by_cases hfirst : '=' ∈ text
  · obtain ⟨a, back, rfl, ha⟩ := List.eq_append_cons_of_mem hfirst
    by_cases hsecond : '=' ∈ back
    · obtain ⟨b, c, rfl, hb⟩ := List.eq_append_cons_of_mem hsecond
      exact .inr (.inr ⟨a, b, c, rfl, ha, hb⟩)
    · exact .inr (.inl ⟨a, back, rfl, ha, hsecond⟩)
  · exact .inl hfirst

theorem parse_of_missing {source : String} (h : '=' ∉ source.toList) :
    parse source = .error (.format 0 ⟨0, byteLength source.toList⟩) := by
  have hfilter := equalsTokens_of_notMem 0 h
  unfold equalsTokens at hfilter
  rw [parse_eq_reduce]
  simp only [reduce, hfilter]
  rfl

theorem parse_of_second {source : String} {a b c : List Char}
    (htext : source.toList = a ++ '=' :: (b ++ '=' :: c)) (ha : '=' ∉ a) (hb : '=' ∉ b) :
    parse source = .error (.format (source.toList.count '=')
      ⟨byteLength (a ++ '=' :: b), byteLength (a ++ '=' :: b) + 1⟩) := by
  have hlength := length_equalsTokens 0 source.toList
  have hfilter := equalsTokens_append 0 ha (b ++ '=' :: c)
  have hoffset : 0 + byteLength a + 1 + byteLength b = byteLength (a ++ '=' :: b) := by
    rw [byteLength_append, byteLength_cons, show '='.utf8Size = 1 from rfl]
    omega
  rw [equalsTokens_append _ hb, hoffset, ← htext] at hfilter
  rw [← hlength, hfilter, parse_eq_reduce]
  unfold equalsTokens at hfilter
  simp only [reduce, hfilter]
  rfl

/-- The fault of a side is about a term. -/
theorem exists_eq_term_of_addSide {source : List Char} {side : Side} {sums : Sums} {equals : Token}
    {tokens : List Token} {fault : Fault}
    (h : (addSide source side sums equals tokens).outcome = .error fault) :
    ∃ text flaw span, fault = .term text flaw span := by
  unfold addSide at h
  split at h
  · cases h
    exact ⟨_, _, _, rfl⟩
  · obtain ⟨term, -, flaw, -, rfl⟩ := exists_flaw_of_addTerms h
    exact ⟨_, _, _, rfl⟩

/-- A text with one `=` has the format of an equation. -/
theorem parse_ne_format {source : String} {a b : List Char} (htext : source.toList = a ++ '=' :: b)
    (ha : '=' ∉ a) (hb : '=' ∉ b) (count : Nat) (span : Span) :
    parse source ≠ .error (.format count span) := by
  have hfilter := equalsTokens_append 0 ha b
  rw [equalsTokens_of_notMem _ hb, ← htext, equalsTokens] at hfilter
  intro h
  rw [parse_eq_reduce, outcome_reduce_eq_error_iff source.toList hfilter] at h
  rcases h with hleft | ⟨s, -, hright⟩
  · obtain ⟨_, _, _, hterm⟩ := exists_eq_term_of_addSide hleft
    cases hterm
  · obtain ⟨_, _, _, hterm⟩ := exists_eq_term_of_addSide hright
    cases hterm

/-- The fault of a text without exactly one `=` counts them and marks the whole text, or the second of
them. -/
theorem parse_eq_format_iff (source : String) (count : Nat) (span : Span) :
    parse source = .error (.format count span) ↔
      count = source.toList.count '=' ∧ FormatSpan source.toList span := by
  constructor
  · intro h
    rcases equals_cases source.toList with hnone | ⟨a, b, htext, ha, hb⟩ | ⟨a, b, c, htext, ha, hb⟩
    · rw [parse_of_missing hnone] at h
      cases h
      exact ⟨(List.count_eq_zero.mpr hnone).symm, .missing hnone⟩
    · exact absurd h (parse_ne_format htext ha hb count span)
    · rw [parse_of_second htext ha hb] at h
      cases h
      exact ⟨rfl, .second htext ha hb⟩
  · rintro ⟨rfl, hspan⟩
    cases hspan with
    | missing hnone => rw [parse_of_missing hnone, List.count_eq_zero.mpr hnone]
    | second htext ha hb => exact parse_of_second htext ha hb

/-- A part of a text is marked exactly when the text does not have one `=`. -/
theorem exists_formatSpan_iff (text : List Char) :
    (∃ span, FormatSpan text span) ↔ text.count '=' ≠ 1 := by
  constructor
  · rintro ⟨span, hspan⟩
    cases hspan with
    | missing hnone =>
        rw [List.count_eq_zero.mpr hnone]
        exact Nat.zero_ne_one
    | second htext ha hb =>
        rw [htext, List.count_append, List.count_cons_self, List.count_append, List.count_cons_self]
        omega
  · intro hcount
    rcases equals_cases text with hnone | ⟨a, b, rfl, ha, hb⟩ | ⟨a, b, c, htext, ha, hb⟩
    · exact ⟨_, .missing hnone⟩
    · rw [List.count_append, List.count_cons_self, List.count_eq_zero.mpr ha,
        List.count_eq_zero.mpr hb] at hcount
      exact absurd rfl hcount
    · exact ⟨_, .second htext ha hb⟩

/-- **The format of an equation is decided by its characters `=` alone.** The fault of a text that does
not have exactly one of them counts them, and marks the whole text or the bytes of the second. -/
theorem format_fault_iff (source : String) :
    ((∃ count span, parse source = .error (.format count span)) ↔ source.toList.count '=' ≠ 1) ∧
      ∀ count span, parse source = .error (.format count span) ↔
        count = source.toList.count '=' ∧ FormatSpan source.toList span := by
  refine ⟨?_, parse_eq_format_iff source⟩
  simp only [parse_eq_format_iff, ← exists_formatSpan_iff, exists_and_left, exists_eq_left]

/-- A second `=` wins over the terms without form, and is marked behind the three bytes of `€`. -/
example : parse "€ = ^ = 1.2.3 =" = .error (.format 3 ⟨8, 9⟩) := by
  decide +kernel

end Quadra.Equation
