import Quadra.Polynomial.Canonical
import Quadra.Proofs.Equation.Displayed
import Quadra.Proofs.Equation.Reading

set_option autoImplicit false

/-!
# The canonical form is an equation

The canonical form of a polynomial is an equation of the grammar, with a term for every entry on the
left side and a zero on the right side: `derives_canonicalTerms`.
-/

namespace Quadra.Equation

/-! ## Tokens of numbers and symbols -/

/-- A numeral that a text starts with is its first token. -/
theorem symbols_writes {text rest : List Char} {q : Rat} (h : Numeral.Writes text q)
    (hrest : ∀ c ∈ rest.head?, isNumberChar c = false) :
    symbols (text ++ rest) = .number text :: symbols rest := by
  obtain ⟨c, others, rfl, hblank, hdigit, hothers⟩ := exists_cons_of_writes h
  exact symbols_number_append hblank hdigit hothers hrest

theorem writes_zero : Numeral.Writes ['0'] (Nat.ofDigitChars 10 ['0'] 0) :=
  Numeral.writes_digits (List.forall_mem_singleton.mpr rfl) (List.cons_ne_nil _ _)

/-- The symbols that a canonical form is made of, apart from numbers. -/
def isOperator (c : Char) : Bool := c ∈ ['+', '-', '*', '^', '=', 'X']

theorem symbols_blank (rest : List Char) : symbols (' ' :: rest) = symbols rest :=
  symbols_of_isBlank (by decide) rest

theorem isNumberChar_head?_blank (rest : List Char) :
    ∀ c ∈ (' ' :: rest).head?, isNumberChar c = false := by
  intro c hc
  cases hc
  rfl

theorem symbols_operator {c : Char} (hc : isOperator c = true) (rest : List Char) :
    symbols (c :: rest) = .ofChar c :: symbols rest := by
  have hmem : c ∈ ['+', '-', '*', '^', '=', 'X'] := of_decide_eq_true hc
  have hclass : Text.isBlank c = false ∧ c.isDigit = false ∧ (c == '.') = false := by
    simp only [List.mem_cons, List.not_mem_nil, or_false] at hmem
    rcases hmem with rfl | rfl | rfl | rfl | rfl | rfl <;> decide
  obtain ⟨hblank, hdigit, hpoint⟩ := hclass
  refine symbols_of_symbol (by rw [hblank]; exact Bool.false_ne_true) ?_
  rw [startsNumber, hdigit, hpoint, Bool.false_and, Bool.or_false]
  exact Bool.false_ne_true

/-! ## One term -/

/-- A coefficient that a term can be written for. -/
def Writable (c : Binary64) : Prop := c.isFinite = true ∧ c.value ≠ 0

/-- The text of the magnitude of a coefficient. -/
def magnitudeText (c : Binary64) : List Char := (Numeric.abs c).display.toList

/-- The term that is written for an entry. -/
def termOf (entry : Power × Binary64) : Term :=
  ⟨decide (entry.2 < 0), some (magnitudeText entry.2), entry.1⟩

/-- The tokens of the term without its sign. -/
def bodyKinds (entry : Power × Binary64) : List Kind :=
  [.number (magnitudeText entry.2), .times, .variable, .power,
    .number (Nat.toDigits 10 entry.1.val)]

/-- The magnitude is written as a numeral that is read as the magnitude. -/
theorem Writable.magnitudeText {c : Binary64} (h : Writable c) :
    ∃ q, Numeral.Writes (magnitudeText c) q ∧ .nearest q = Numeric.abs c := by
  have hfinite := Numeric.isFinite_abs h.1
  have hpos : 0 < (Numeric.abs c).value := by
    rw [Numeric.value_abs h.1]
    exact abs_pos.mpr h.2
  have hne : Numeric.abs c ≠ .zero true := by
    intro heq
    rw [heq, Binary64.value_zero] at hpos
    exact lt_irrefl 0 hpos
  obtain ⟨text, q, hwrites, -, hunsigned, -⟩ := Binary64.display_spec hfinite
  obtain ⟨hdisplay, hread⟩ := hunsigned (mt (Binary64.lt_zero_iff hfinite).mp hpos.not_gt)
  rw [if_neg hne] at hread
  refine ⟨q, ?_, hread⟩
  rwa [Equation.magnitudeText, hdisplay, String.toList_ofList]

theorem isBody_bodyKinds {entry : Power × Binary64} (h : Writable entry.2) :
    IsBody (bodyKinds entry) (some (magnitudeText entry.2)) entry.1 := by
  obtain ⟨q, hwrites, hread⟩ := h.magnitudeText
  have hcoefficient : IsCoefficient (magnitudeText entry.2) :=
    ⟨Numeric.abs entry.2, hread ▸ hwrites.ofNumeral?, Numeric.isFinite_abs h.1⟩
  exact .product hcoefficient (.raised ⟨isDigit_toDigits _, Nat.ofDigitChars_ten_toDigits⟩)

/-- The text of a term has its tokens, in front of anything that does not go on with its power. -/
theorem symbols_termText {entry : Power × Binary64} (h : Writable entry.2) {rest : List Char}
    (hrest : ∀ c ∈ rest.head?, isNumberChar c = false) :
    symbols ((Polynomial.termText entry).toList ++ rest) = bodyKinds entry ++ symbols rest := by
  obtain ⟨q, hwrites, -⟩ := h.magnitudeText
  have hpower := Numeral.writes_digits (isDigit_toDigits entry.1.val) Nat.toDigits_ne_nil
  have htext : (Polynomial.termText entry).toList ++ rest =
      magnitudeText entry.2 ++ ' ' :: '*' :: ' ' :: 'X' :: '^' ::
        (Nat.toDigits 10 entry.1.val ++ rest) := by
    simp [Polynomial.termText, magnitudeText]
  rw [htext, symbols_writes hwrites (isNumberChar_head?_blank _), symbols_blank,
    symbols_operator rfl, symbols_blank, symbols_operator rfl, symbols_operator rfl,
    symbols_writes hpower hrest]
  rfl

/-! ## All terms -/

theorem Writable.separator {c : Binary64} (h : Writable c) :
    (Polynomial.separator c).toList = [' ', if c < 0 then '-' else '+', ' '] := by
  -- the coefficient is not zero, so that it is above zero when it is not below
  have hlt : 0 < c ↔ ¬ c < 0 := by
    rw [Binary64.lt_iff_value_lt Binary64.isFinite_ofNat_zero h.1,
      Binary64.lt_iff_value_lt h.1 Binary64.isFinite_ofNat_zero, Binary64.value_ofNat_zero]
    exact ⟨fun hpos => hpos.le.not_gt, fun hneg => lt_of_le_of_ne (not_lt.mp hneg) h.2.symm⟩
  rw [Polynomial.separator]
  by_cases hneg : c < 0
  · rw [if_neg fun hpos => hlt.mp hpos hneg, if_pos hneg]
    rfl
  · rw [if_pos (hlt.mpr hneg), if_neg hneg]
    rfl

/-- The tokens of terms with their signs. -/
def signedKinds (entries : List (Power × Binary64)) : List Kind :=
  entries.flatMap fun entry => signKind (decide (entry.2 < 0)) :: bodyKinds entry

theorem signedKinds_cons (entry : Power × Binary64) (entries : List (Power × Binary64)) :
    signedKinds (entry :: entries) =
      signKind (decide (entry.2 < 0)) :: (bodyKinds entry ++ signedKinds entries) := rfl

theorem areSigned_signedKinds {entries : List (Power × Binary64)}
    (h : ∀ entry ∈ entries, Writable entry.2) :
    AreSigned (signedKinds entries) (entries.map termOf) := by
  induction entries with
  | nil => exact .nil
  | cons entry entries ih =>
      obtain ⟨hentry, hentries⟩ := List.forall_mem_cons.mp h
      exact .cons _ (isBody_bodyKinds hentry) (ih hentries)

theorem ofChar_sign (negative : Bool) :
    Kind.ofChar (if negative then '-' else '+') = signKind negative := by
  cases negative <;> rfl

/-- The text of the terms behind the first one, and of the right side. -/
def tailText (entries : List (Power × Binary64)) : List Char :=
  (entries.flatMap fun entry =>
    (Polynomial.separator entry.2 ++ Polynomial.termText entry).toList) ++ " = 0".toList

/-- What follows a term starts with a blank. -/
theorem isNumberChar_head?_tailText {entries : List (Power × Binary64)}
    (h : ∀ entry ∈ entries, Writable entry.2) :
    ∀ c ∈ (tailText entries).head?, isNumberChar c = false := by
  cases entries with
  | nil => exact isNumberChar_head?_blank ['=', ' ', '0']
  | cons entry entries =>
      rw [tailText, List.flatMap_cons, String.toList_append,
        (List.forall_mem_cons.mp h).1.separator]
      exact isNumberChar_head?_blank _

theorem symbols_tailText {entries : List (Power × Binary64)}
    (h : ∀ entry ∈ entries, Writable entry.2) :
    symbols (tailText entries) = signedKinds entries ++ [.equals, .number ['0']] := by
  induction entries with
  | nil =>
      have hend := @symbols_writes ['0'] [] _ writes_zero fun c hc => absurd hc (Option.not_mem_none c)
      show symbols (' ' :: '=' :: ' ' :: (['0'] ++ [])) = _
      rw [symbols_blank, symbols_operator rfl, symbols_blank, hend, symbols, tokensFrom_nil]
      rfl
  | cons entry entries ih =>
      obtain ⟨hentry, hentries⟩ := List.forall_mem_cons.mp h
      have htext : tailText (entry :: entries) = ' ' :: (if entry.2 < 0 then '-' else '+') :: ' ' ::
          ((Polynomial.termText entry).toList ++ tailText entries) := by
        simp [tailText, hentry.separator]
      have hsign : isOperator (if entry.2 < 0 then '-' else '+') = true := by split <;> rfl
      have hkind : Kind.ofChar (if entry.2 < 0 then '-' else '+') =
          signKind (decide (entry.2 < 0)) := by
        rw [← ofChar_sign]
        simp
      rw [htext, symbols_blank, symbols_operator hsign, symbols_blank,
        symbols_termText hentry (isNumberChar_head?_tailText hentries), ih hentries, hkind,
        signedKinds_cons, List.cons_append, List.append_assoc]

/-! ## The canonical form -/

/-- The zero that stands alone on a side. -/
def zeroTerm : Term := ⟨false, some ['0'], .zero⟩

/-- The terms of the left side of the canonical form. -/
def leftTerms (entries : List (Power × Binary64)) : List Term :=
  if entries = [] then [zeroTerm] else entries.map termOf

theorem isSide_zero : IsSide [.number ['0']] [zeroTerm] := by
  have hcoefficient : IsCoefficient ['0'] := by
    refine ⟨_, writes_zero.ofNumeral?, ?_⟩
    decide +kernel
  exact .unsigned (.constant hcoefficient) .nil

/-- **The canonical form is an equation**: its left side has a term for every entry, or a zero where
there is none, and its right side is a zero. -/
theorem derives_canonicalTerms {entries : List (Power × Binary64)}
    (h : ∀ entry ∈ entries, Writable entry.2) :
    Derives (Polynomial.canonicalTerms entries) (leftTerms entries) [zeroTerm] := by
  rw [derives_iff]
  cases entries with
  | nil =>
      -- the text is `0 = 0`
      refine ⟨[.number ['0']], [.number ['0']], ?_, isSide_zero, isSide_zero⟩
      have hfirst := symbols_writes writes_zero (isNumberChar_head?_tailText h)
      rw [symbols_tailText h] at hfirst
      exact hfirst
  | cons first rest =>
      obtain ⟨hfirst, hrest⟩ := List.forall_mem_cons.mp h
      have htext : (Polynomial.canonicalTerms (first :: rest)).toList =
          (Polynomial.leadingSign first.2).toList ++
            ((Polynomial.termText first).toList ++ tailText rest) := by
        simp [Polynomial.canonicalTerms, tailText, List.flatMap_map]
      have hsymbols := symbols_termText hfirst (isNumberChar_head?_tailText hrest)
      rw [symbols_tailText hrest, ← List.append_assoc] at hsymbols
      rw [htext, Polynomial.leadingSign]
      by_cases hneg : first.2 < 0
      · -- the sign of the first term is written like that of any other
        refine ⟨signedKinds (first :: rest), [.number ['0']], ?_, ?_, isSide_zero⟩
        · rw [if_pos hneg]
          show symbols ('-' :: ' ' :: ((Polynomial.termText first).toList ++ tailText rest)) = _
          rw [symbols_operator rfl, symbols_blank, hsymbols, signedKinds_cons, decide_eq_true hneg]
          rfl
        · exact .signed (areSigned_signedKinds h)
      · -- the first term is written without a sign
        refine ⟨bodyKinds first ++ signedKinds rest, [.number ['0']], ?_, ?_, isSide_zero⟩
        · rw [if_neg hneg]
          exact hsymbols
        · have hterm : leftTerms (first :: rest) =
              ⟨false, some (magnitudeText first.2), first.1⟩ :: rest.map termOf := by
            rw [leftTerms, if_neg (List.cons_ne_nil _ _), List.map_cons, termOf,
              decide_eq_false hneg]
          rw [hterm]
          exact .unsigned (isBody_bodyKinds hfirst) (areSigned_signedKinds hrest)

end Quadra.Equation
