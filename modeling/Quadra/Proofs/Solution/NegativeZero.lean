import Quadra.Proofs.Decimal.Fixed
import Quadra.Proofs.Decimal.Numeral
import Quadra.Proofs.Solution.Cases

set_option autoImplicit false

/-!
# Where a negative zero is shown

A text shows a negative zero when it has `-0.000000` in it with no digit behind (`ShowsNegativeZero`). A
number with six decimal places does so when it is negative and within half a millionth of zero
(`Vanishes`), and no other number that a solution or an explanation is written with ever does. What stands
between the numbers of a line cannot be taken for a part of them (`IsSeparator`), so that a complex solution
shows a negative zero exactly when its real part vanishes, and so do the explanations of a solved equation.
-/

namespace Quadra

/-! ## Texts -/

/-- A negative zero with six decimal places. -/
def negativeZero : List Char := ['-', '0', '.', '0', '0', '0', '0', '0', '0']

/-- A negative zero stands in the text, and not as the start of a longer number. -/
def ShowsNegativeZero (text : List Char) : Prop :=
  ∃ front back, text = front ++ negativeZero ++ back ∧ back.head?.any Char.isDigit = false

/-- A character that may stand in a number, its sign included. -/
def isSignedNumberChar (c : Char) : Bool := c.isDigit || c == '.' || c == '-'

theorem isSignedNumberChar_of_mem_negativeZero : ∀ c ∈ negativeZero, isSignedNumberChar c = true :=
  List.all_eq_true.mp rfl

theorem isDigit_eq_false_of_isSignedNumberChar {c : Char} (hc : isSignedNumberChar c = false) :
    c.isDigit = false := by
  rw [isSignedNumberChar, Bool.or_assoc] at hc
  exact (Bool.or_eq_false_iff.mp hc).1

namespace ShowsNegativeZero

variable {text : List Char}

theorem mem (h : ShowsNegativeZero text) : ∀ c ∈ negativeZero, c ∈ text := by
  obtain ⟨front, back, rfl, -⟩ := h
  exact fun c hc => List.mem_append_left _ (List.mem_append_right _ hc)

/-- Behind a minus without another one the text has to start with the negative zero. -/
theorem of_minus (hminus : '-' ∉ text) (h : ShowsNegativeZero ('-' :: text)) :
    ∃ back, text = negativeZero.tail ++ back ∧ back.head?.any Char.isDigit = false := by
  obtain ⟨front, back, htext, hback⟩ := h
  cases front with
  | nil => exact ⟨back, List.tail_eq_of_cons_eq htext, hback⟩
  | cons c front =>
      rw [List.tail_eq_of_cons_eq htext] at hminus
      exact absurd (List.mem_append_left _ (List.mem_append_right _ List.mem_cons_self)) hminus

/-- What shows a negative zero does so with more characters in front. -/
theorem append_left (h : ShowsNegativeZero text) (front : List Char) :
    ShowsNegativeZero (front ++ text) := by
  obtain ⟨front', back, rfl, hback⟩ := h
  exact ⟨front ++ front', back, by simp only [List.append_assoc], hback⟩

end ShowsNegativeZero

section

variable {c : Char} (hc : isSignedNumberChar c = false)

include hc

/-- In front of a separator no digit follows that did not follow before. -/
theorem head?_append_cons_any_isDigit (middle b : List Char) :
    (middle ++ c :: b).head?.any Char.isDigit = middle.head?.any Char.isDigit := by
  cases middle with
  | nil => exact isDigit_eq_false_of_isSignedNumberChar hc
  | cons d middle => rfl

/-- A negative zero has no separator in it, so it stands in front of one or behind it. -/
theorem ShowsNegativeZero.of_append_cons {a b : List Char} (h : ShowsNegativeZero (a ++ c :: b)) :
    ShowsNegativeZero a ∨ ShowsNegativeZero b := by
  have hzero : c ∉ negativeZero := fun hmem =>
    absurd (isSignedNumberChar_of_mem_negativeZero c hmem) (hc ▸ Bool.false_ne_true)
  obtain ⟨front, back, htext, hback⟩ := h
  rcases List.append_eq_append_iff.mp htext with ⟨middle, hfront, hmiddle⟩ | ⟨middle, rfl, rfl⟩
  · rcases List.cons_eq_append_iff.mp hmiddle with ⟨rfl, -⟩ | ⟨middle, rfl, rfl⟩
    · exact .inl ⟨front, [], by simpa using hfront.symm, rfl⟩
    · -- the negative zero ends behind the separator, and begins behind it too
      right
      rcases List.append_eq_append_iff.mp hfront with ⟨rest, -, hrest⟩ | ⟨rest, -, hrest⟩
      · rw [hrest] at hzero
        exact absurd (List.mem_append_right rest List.mem_cons_self) hzero
      · rcases List.cons_eq_append_iff.mp hrest with ⟨-, hrest⟩ | ⟨rest, -, rfl⟩
        · rw [hrest] at hzero
          exact absurd List.mem_cons_self hzero
        · exact ⟨rest, back, rfl, hback⟩
  · rw [head?_append_cons_any_isDigit hc] at hback
    exact .inl ⟨front, middle, rfl, hback⟩

theorem showsNegativeZero_append_cons (a b : List Char) :
    ShowsNegativeZero (a ++ c :: b) ↔ ShowsNegativeZero a ∨ ShowsNegativeZero b := by
  constructor
  · exact ShowsNegativeZero.of_append_cons hc
  · rintro (⟨front, back, rfl, hback⟩ | h)
    · refine ⟨front, back ++ c :: b, by simp only [List.append_assoc], ?_⟩
      rw [head?_append_cons_any_isDigit hc, hback]
    · rw [List.append_cons]
      exact h.append_left _

end

/-! ## Separators -/

/-- A text without a minus or without a zero shows no negative zero. -/
def isPlain (text : List Char) : Bool := !(text.contains '-' && text.contains '0')

/-- A string that separates the numbers around it: neither its first nor its last character stands in one,
and it has no negative zero itself. -/
structure IsSeparator (s : String) : Prop where
  head : s.toList.head?.any (!isSignedNumberChar ·) = true
  getLast : s.toList.getLast?.any (!isSignedNumberChar ·) = true
  plain : isPlain s.toList = true

theorem not_showsNegativeZero_of_isPlain {text : List Char} (h : isPlain text = true) :
    ¬ ShowsNegativeZero text := by
  intro hshows
  rw [isPlain, List.contains_iff_mem.mpr (hshows.mem '-' (by decide)),
    List.contains_iff_mem.mpr (hshows.mem '0' (by decide))] at h
  exact absurd h (by decide)

theorem showsNegativeZero_append_of_head {a b : List Char} (hb : b.head?.any (!isSignedNumberChar ·) = true) :
    ShowsNegativeZero (a ++ b) ↔ ShowsNegativeZero a ∨ ShowsNegativeZero b := by
  cases b with
  | nil => exact absurd hb Bool.false_ne_true
  | cons c b =>
      have hc : isSignedNumberChar c = false := by simpa using hb
      have hnil : ¬ ShowsNegativeZero [] := not_showsNegativeZero_of_isPlain rfl
      have hcons := showsNegativeZero_append_cons hc [] b
      rw [List.nil_append, or_iff_right hnil] at hcons
      rw [showsNegativeZero_append_cons hc, hcons]

theorem showsNegativeZero_append_of_getLast {a b : List Char}
    (ha : a.getLast?.any (!isSignedNumberChar ·) = true) :
    ShowsNegativeZero (a ++ b) ↔ ShowsNegativeZero a ∨ ShowsNegativeZero b := by
  obtain ⟨c, hlast, hc⟩ := (Option.any_eq_true _ _).mp ha
  obtain ⟨front, rfl⟩ := List.getLast?_eq_some_iff.mp hlast
  have hnumber : isSignedNumberChar c = false := (Bool.not_eq_true' _).mp hc
  have hnil : ¬ ShowsNegativeZero [] := not_showsNegativeZero_of_isPlain rfl
  have hcons := showsNegativeZero_append_cons hnumber front []
  rw [or_iff_left hnil] at hcons
  rw [List.append_assoc, List.singleton_append, showsNegativeZero_append_cons hnumber, hcons]

/-- What is spelled out in a text is seen at its characters. -/
theorem isSeparator_literal {text : List Char} (head : text.head?.any (!isSignedNumberChar ·) = true)
    (getLast : text.getLast?.any (!isSignedNumberChar ·) = true) (plain : isPlain text = true) :
    IsSeparator (.ofList text) := by
  constructor <;> rwa [String.toList_ofList]

theorem not_showsNegativeZero_literal {text : List Char} (h : isPlain text = true) :
    ¬ ShowsNegativeZero (String.ofList text).toList := by
  rw [String.toList_ofList]
  exact not_showsNegativeZero_of_isPlain h

section

variable {a separator b : String} (h : IsSeparator separator)

include h

theorem showsNegativeZero_behind :
    ShowsNegativeZero (separator ++ b).toList ↔ ShowsNegativeZero b.toList := by
  rw [String.toList_append, showsNegativeZero_append_of_getLast h.getLast]
  exact or_iff_right (not_showsNegativeZero_of_isPlain h.plain)

theorem showsNegativeZero_between :
    ShowsNegativeZero (a ++ separator ++ b).toList ↔
      ShowsNegativeZero a.toList ∨ ShowsNegativeZero b.toList := by
  have hhead : (separator ++ b).toList.head?.any (!isSignedNumberChar ·) = true := by
    obtain ⟨c, hc, hnumber⟩ := (Option.any_eq_true _ _).mp h.head
    rw [String.toList_append, List.head?_append, hc]
    exact hnumber
  rw [String.append_assoc, String.toList_append, showsNegativeZero_append_of_head hhead,
    showsNegativeZero_behind h]

end

/-! ## Numbers -/

/-- A number below zero, and not by more than half a millionth. -/
def Vanishes (x : Binary64) : Prop := -(1 / 2000000) ≤ x.value ∧ x.value < 0

namespace Fixed.Written

/-- A number with six decimal places shows a negative zero only when it is one. -/
theorem showsNegativeZero_text_iff (w : Written 6) : ShowsNegativeZero w.text ↔ w.text = negativeZero := by
  constructor
  · intro h
    cases hsign : w.negative with
    | false =>
        rw [text, hsign] at h
        exact absurd (h.mem '-' (by decide)) w.minus_not_mem_magnitude
    | true =>
        rw [text, hsign] at h ⊢
        obtain ⟨back, htext, -⟩ := ShowsNegativeZero.of_minus w.minus_not_mem_magnitude h
        -- six digits stand behind the point, and no more
        have hrest : w.rest = List.replicate 6 '0' ++ back := by
          have hfraction := congrArg Numeral.fraction htext
          rw [magnitude, Numeral.fraction_append w.isDigit_whole] at hfraction
          have hzero : ∀ c ∈ ['0'], c.isDigit = true := List.forall_mem_singleton.mpr rfl
          exact hfraction.trans (Numeral.fraction_append hzero _)
        have hlength := w.length_rest
        rw [hrest, List.length_append, List.length_replicate] at hlength
        obtain rfl : back = [] := List.length_eq_zero_iff.mp (by omega)
        rw [htext]
        rfl
  · intro h
    exact ⟨[], [], by rw [h]; rfl, rfl⟩

end Fixed.Written

namespace Binary64

theorem value_eq_zero_of_not_isFinite {x : Binary64} (hx : ¬ x.isFinite = true) : x.value = 0 := by
  rcases x with _ | _ | ⟨_, _, _, _⟩
  · rfl
  · rfl
  · exact absurd rfl hx

/-- A number with six decimal places shows a negative zero exactly when it vanishes. -/
theorem showsNegativeZero_fixed_iff (x : Binary64) : ShowsNegativeZero x.fixed.toList ↔ Vanishes x := by
  by_cases hx : x.isFinite = true
  · obtain ⟨w, hfixed, -, -⟩ := fixed_written hx
    have hzero : "-0.000000" = String.ofList negativeZero := by decide +kernel
    rw [Vanishes, ← fixed_eq_negative_zero_iff hx, hfixed, hzero, String.toList_ofList, String.ofList_inj,
      Fixed.Written.showsNegativeZero_text_iff]
  · have hvanishes : ¬ Vanishes x := fun h => h.2.ne (value_eq_zero_of_not_isFinite hx)
    refine iff_of_false (not_showsNegativeZero_of_isPlain ?_) hvanishes
    rw [fixed, String.toList_ofList]
    rcases x with _ | negative | ⟨_, _, _, _⟩
    · rfl
    · cases negative <;> rfl
    · exact absurd rfl hx

/-- No digit and no second point can stand behind the zeros in a numeral. -/
theorem eq_nil_of_writes {back : List Char} {q : Rat}
    (hwrites : Numeral.Writes (negativeZero.tail ++ back) q) (hback : back.head?.any Char.isDigit = false) :
    back = [] := by
  cases back with
  | nil => rfl
  | cons c back =>
      have hcount := Numeral.count_point_lt_of_isNumeral hwrites.numeral
      have hchars := hwrites.chars c (List.mem_append_right _ List.mem_cons_self)
      have hpoint : c ≠ '.' := by
        rintro rfl
        rw [List.count_append, List.count_cons_self] at hcount
        have htail : negativeZero.tail.count '.' = 1 := rfl
        omega
      have hdigit : c.isDigit = false := hback
      exact absurd (hchars.resolve_right hpoint) (hdigit ▸ Bool.false_ne_true)

/-- A displayed number never shows one: as a numeral it is not zero. -/
theorem not_showsNegativeZero_display (x : Binary64) : ¬ ShowsNegativeZero x.display.toList := by
  by_cases hx : x.isFinite = true
  · obtain ⟨text, q, hwrites, -, hpos, hneg⟩ := display_spec hx
    have hminus : '-' ∉ text := fun hmem => absurd (hwrites.chars '-' hmem) (by decide)
    intro h
    by_cases hlt : x < 0
    · obtain ⟨hdisplay, hnearest⟩ := hneg hlt
      rw [hdisplay, String.toList_ofList] at h
      obtain ⟨back, rfl, hback⟩ := ShowsNegativeZero.of_minus hminus h
      -- then the numeral denotes zero, and the number is not below zero
      obtain rfl := eq_nil_of_writes hwrites hback
      have hzero : q = 0 := hwrites.value_eq.symm.trans (by decide +kernel)
      rw [hzero, nearest_zero] at hnearest
      have hvalue := congrArg value hnearest
      rw [value_zero, value_opposite] at hvalue
      have hlow := (lt_zero_iff hx).mp hlt
      linarith
    · rw [(hpos hlt).1, String.toList_ofList] at h
      exact hminus (h.mem '-' (by decide))
  · refine not_showsNegativeZero_of_isPlain ?_
    rw [display, String.toList_ofList]
    rcases x with _ | negative | ⟨_, _, _, _⟩
    · rfl
    · cases negative <;> rfl
    · exact absurd rfl hx

end Binary64

/-! ## Solutions -/

/-- A text without a point shows no negative zero. -/
theorem not_showsNegativeZero_of_point {text : List Char} (h : '.' ∉ text) : ¬ ShowsNegativeZero text :=
  fun hshows => h (hshows.mem '.' (by decide))

theorem point_not_mem_toString_nat (n : Nat) : '.' ∉ (toString n).toList := by
  rw [Nat.toString_eq_ofList_toDigits, String.toList_ofList]
  exact fun hmem => absurd (isDigit_toDigits n '.' hmem) (by decide)

theorem point_not_mem_toString_int (n : Int) : '.' ∉ (toString n).toList := by
  cases n with
  | ofNat n => exact point_not_mem_toString_nat n
  | negSucc n =>
      show '.' ∉ ("-" ++ toString (n + 1)).toList
      rw [String.toList_append]
      exact fun hmem => (List.mem_append.mp hmem).elim (by decide) (point_not_mem_toString_nat _)

theorem Fraction.not_showsNegativeZero_text (f : Fraction) : ¬ ShowsNegativeZero f.text.toList := by
  refine not_showsNegativeZero_of_point ?_
  rw [text]
  split
  · exact point_not_mem_toString_int _
  · rw [String.toList_append, String.toList_append, List.mem_append, List.mem_append, not_or, not_or]
    exact ⟨⟨point_not_mem_toString_int _, by decide⟩, point_not_mem_toString_nat _⟩

theorem Root.not_showsNegativeZero_text (fractions : Bool) (root : Root) :
    ¬ ShowsNegativeZero (root.text fractions).toList := by
  rw [text]
  split
  · split
    · exact Fraction.not_showsNegativeZero_text _
    · exact root.value.not_showsNegativeZero_display
  · exact root.value.not_showsNegativeZero_display

/-- A magnitude does not vanish. -/
theorem not_vanishes_abs (x : Binary64) : ¬ Vanishes (Numeric.abs x) := by
  rintro ⟨-, hneg⟩
  by_cases hx : x.isFinite = true
  · rw [Numeric.value_abs hx] at hneg
    exact absurd hneg (abs_nonneg _).not_gt
  · have hvalue : (Numeric.abs x).value = 0 := by
      rw [Numeric.abs]
      split
      · rw [Binary64.value_opposite, Binary64.value_eq_zero_of_not_isFinite hx, neg_zero]
      · exact Binary64.value_eq_zero_of_not_isFinite hx
    exact hneg.ne hvalue

namespace Solution

theorem not_showsNegativeZero_sign (x : Binary64) :
    ¬ ShowsNegativeZero (if x < 0 then "-" else "+").toList := by
  split <;> exact not_showsNegativeZero_literal rfl

/-- The real part of a solution. -/
def realPart : Solution → Binary64
  | .real root => root.value
  | .complex re _ => re.value

/-- In decimals a complex solution shows a negative zero exactly when its real part vanishes. -/
theorem showsNegativeZero_decimals_iff (re im : Root) :
    ShowsNegativeZero ((complex re im).text false).toList ↔ Vanishes re.value := by
  rw [text]
  simp (disch := exact isSeparator_literal rfl rfl rfl) only [showsNegativeZero_between]
  simp only [Bool.false_eq_true, if_false, Binary64.showsNegativeZero_fixed_iff,
    not_showsNegativeZero_sign im.value, not_vanishes_abs im.value, or_false]

/-- With fractions it never does, since a part that is no fraction has all its digits. -/
theorem not_showsNegativeZero_fractions (re im : Root) :
    ¬ ShowsNegativeZero ((complex re im).text true).toList := by
  rw [text]
  simp (disch := exact isSeparator_literal rfl rfl rfl) only [showsNegativeZero_between]
  simp only [if_true, Root.not_showsNegativeZero_text, not_showsNegativeZero_sign im.value, or_self,
    not_false_iff]

end Solution

/-! ## Explanations -/

/-- The lines of an analysis show a negative zero exactly when the real part of one of its solutions
vanishes. -/
def Analysis.ShowsVanishing (analysis : Analysis) : Prop :=
  (∃ line ∈ analysis.explanation, ShowsNegativeZero line.toList) ↔
    ∃ solution ∈ analysis.solutions, Vanishes solution.realPart

theorem SolutionKind.not_showsNegativeZero_summary (kind : SolutionKind) :
    ¬ ShowsNegativeZero kind.summary.toList := by
  cases kind <;> exact not_showsNegativeZero_literal rfl

/-- A single root is shown in one step behind a heading. -/
theorem showsNegativeZero_single_iff {heading step : String} {root : Root}
    (hheading : ¬ ShowsNegativeZero heading.toList)
    (hstep : ShowsNegativeZero step.toList ↔ Vanishes root.value) :
    (∃ line ∈ [heading, step], ShowsNegativeZero line.toList) ↔
      ∃ solution ∈ [Solution.real root], Vanishes solution.realPart := by
  simp only [List.mem_cons, List.not_mem_nil, or_false, exists_eq_or_imp, exists_eq_left, hheading, false_or,
    hstep, Solution.realPart]

namespace Coefficients

variable (k : Coefficients)

/-- The step of a root shows a negative zero exactly when the root does. -/
theorem showsNegativeZero_formulaStep_iff {root sign symbol radical result : String}
    (hroot : ¬ ShowsNegativeZero root.toList) (hsign : ¬ ShowsNegativeZero sign.toList)
    (hsymbol : ¬ ShowsNegativeZero symbol.toList) (hradical : ¬ ShowsNegativeZero radical.toList) :
    ShowsNegativeZero (k.formulaStep root sign symbol radical result).toList ↔
      ShowsNegativeZero result.toList := by
  rw [formulaStep]
  simp (disch := exact isSeparator_literal rfl rfl rfl) only [showsNegativeZero_between]
  simp only [hroot, hsign, hsymbol, hradical, Binary64.not_showsNegativeZero_display, false_or]

/-- A pair of roots is shown in two steps behind its summary. -/
theorem showsNegativeZero_pair_iff (kind : SolutionKind) {symbol letters result result' : String}
    {x : Binary64} {solution solution' : Solution} (hsymbol : ¬ ShowsNegativeZero symbol.toList)
    (hletters : IsSeparator letters)
    (hresult : ShowsNegativeZero result.toList ↔ Vanishes solution.realPart)
    (hresult' : ShowsNegativeZero result'.toList ↔ Vanishes solution'.realPart) :
    (∃ line ∈ [kind.summary, k.formulaStep "x₁" "+" symbol (letters ++ x.display) result,
        k.formulaStep "x₂" "-" symbol (letters ++ x.display) result'], ShowsNegativeZero line.toList) ↔
      ∃ s ∈ [solution, solution'], Vanishes s.realPart := by
  have hradical : ¬ ShowsNegativeZero (letters ++ x.display).toList := by
    rw [showsNegativeZero_behind hletters]
    exact x.not_showsNegativeZero_display
  have hplus : ShowsNegativeZero
      (k.formulaStep "x₁" "+" symbol (letters ++ x.display) result).toList ↔ _ :=
    k.showsNegativeZero_formulaStep_iff (not_showsNegativeZero_literal rfl)
      (not_showsNegativeZero_literal rfl) hsymbol hradical
  have hminus : ShowsNegativeZero
      (k.formulaStep "x₂" "-" symbol (letters ++ x.display) result').toList ↔ _ :=
    k.showsNegativeZero_formulaStep_iff (not_showsNegativeZero_literal rfl)
      (not_showsNegativeZero_literal rfl) hsymbol hradical
  simp only [List.mem_cons, List.not_mem_nil, or_false, exists_eq_or_imp, exists_eq_left,
    kind.not_showsNegativeZero_summary, false_or, hplus, hminus, hresult, hresult']

theorem realPair_showsVanishing (x : Binary64) : (k.realPair x).ShowsVanishing :=
  k.showsNegativeZero_pair_iff .positiveDiscriminant (not_showsNegativeZero_literal rfl)
    (isSeparator_literal rfl rfl rfl) (Binary64.showsNegativeZero_fixed_iff _) (Binary64.showsNegativeZero_fixed_iff _)

theorem doubleRoot_showsVanishing (x : Binary64) : (k.doubleRoot x).ShowsVanishing := by
  refine showsNegativeZero_single_iff (not_showsNegativeZero_literal rfl) ?_
  simp (disch := exact isSeparator_literal rfl rfl rfl) only
    [showsNegativeZero_between, showsNegativeZero_behind]
  simp only [Binary64.not_showsNegativeZero_display, Binary64.showsNegativeZero_fixed_iff, false_or]

theorem conjugatePair_showsVanishing (x : Binary64) : (k.conjugatePair x).ShowsVanishing :=
  k.showsNegativeZero_pair_iff .negativeDiscriminant (not_showsNegativeZero_literal rfl)
    (isSeparator_literal rfl rfl rfl) (Solution.showsNegativeZero_decimals_iff _ _)
    (Solution.showsNegativeZero_decimals_iff _ _)

/-- The steps in front of the roots show none. -/
theorem not_showsNegativeZero_discriminantSteps (x : Binary64) :
    ¬ ∃ line ∈ k.discriminantSteps x, ShowsNegativeZero line.toList := by
  have hheading : ¬ ShowsNegativeZero
      "This is a quadratic equation (degree 2). We use the discriminant Δ = b² - 4ac.".toList :=
    not_showsNegativeZero_literal rfl
  simp only [discriminantSteps, List.mem_cons, List.not_mem_nil, or_false, exists_eq_or_imp, exists_eq_left,
    hheading, false_or]
  simp (disch := exact isSeparator_literal rfl rfl rfl) only
    [showsNegativeZero_between, showsNegativeZero_behind]
  simp only [Binary64.not_showsNegativeZero_display, or_self, not_false_iff]

theorem quadratic_showsVanishing : k.quadratic.ShowsVanishing := by
  have hsteps := k.not_showsNegativeZero_discriminantSteps k.discriminant
  -- the steps in front change nothing, so the three kinds of roots are looked at by themselves
  have hbehind : ∀ analysis : Analysis, analysis.ShowsVanishing → Analysis.ShowsVanishing
      { analysis with explanation := k.discriminantSteps k.discriminant ++ analysis.explanation } := by
    intro analysis h
    unfold Analysis.ShowsVanishing
    simp only [List.mem_append, or_and_right, exists_or]
    rw [or_iff_right hsteps]
    exact h
  rw [quadratic]
  refine hbehind _ ?_
  split
  · exact k.realPair_showsVanishing _
  · split
    · exact k.doubleRoot_showsVanishing _
    · exact k.conjugatePair_showsVanishing _

theorem linear_showsVanishing : k.linear.ShowsVanishing := by
  refine showsNegativeZero_single_iff (not_showsNegativeZero_literal rfl) ?_
  simp (disch := exact isSeparator_literal rfl rfl rfl) only
    [showsNegativeZero_between, showsNegativeZero_behind]
  simp only [Binary64.not_showsNegativeZero_display, Binary64.showsNegativeZero_fixed_iff, false_or]

theorem constant_showsVanishing : k.constant.ShowsVanishing := by
  have hnone : ∀ line ∈ k.constant.explanation, ¬ ShowsNegativeZero line.toList := by
    rw [constant]
    split
    · refine List.forall_mem_singleton.mpr ?_
      -- the end has a point, so it is no separator, but only its first character has to separate
      have hend : ¬ ShowsNegativeZero " = 0, which is impossible. No solution.".toList :=
        not_showsNegativeZero_literal rfl
      rw [String.toList_append, showsNegativeZero_append_of_head (by decide +kernel),
        showsNegativeZero_behind (isSeparator_literal rfl rfl rfl)]
      exact not_or.mpr ⟨Binary64.not_showsNegativeZero_display _, hend⟩
    · exact List.forall_mem_singleton.mpr (not_showsNegativeZero_literal rfl)
  rw [Analysis.ShowsVanishing, k.constant_solutions]
  refine iff_of_false ?_ ?_
  · rintro ⟨line, hline, hshows⟩
    exact hnone line hline hshows
  · rintro ⟨solution, hsolution, -⟩
    exact List.not_mem_nil hsolution

end Coefficients

theorem Analysis.unsupported_showsVanishing : Analysis.unsupported.ShowsVanishing := by
  have hsummary := SolutionKind.unsupported.not_showsNegativeZero_summary
  refine iff_of_false ?_ ?_
  · rintro ⟨line, hline, hshows⟩
    exact hsummary (List.mem_singleton.mp hline ▸ hshows)
  · rintro ⟨solution, hsolution, -⟩
    exact List.not_mem_nil hsolution

theorem Polynomial.analysis_showsVanishing (p : Polynomial) : p.analysis.ShowsVanishing := by
  rw [analysis]
  split
  · exact Coefficients.constant_showsVanishing _
  · exact Coefficients.linear_showsVanishing _
  · exact Coefficients.quadratic_showsVanishing _
  · exact Analysis.unsupported_showsVanishing

/-! ## Six decimal places -/

/-- **A number with six decimal places is the nearest millionth**, with a sign exactly when it is below zero.
So a number that vanishes is shown as a negative zero, in complex solutions too and in explanations, and
nothing else is. -/
theorem fixed_nearest_and_negative_zero {x : Binary64} (hx : x.isFinite = true) (re im : Root)
    (p : Polynomial) :
    (∃ w : Fixed.Written 6, x.fixed = .ofList w.text ∧ w.IsRounded x.value ∧
      (w.negative = true ↔ x < 0) ∧ (w.text = negativeZero ↔ Vanishes x)) ∧
    (ShowsNegativeZero ((Solution.complex re im).text false).toList ↔ Vanishes re.value) ∧
    ¬ ShowsNegativeZero ((Solution.complex re im).text true).toList ∧
    ((∃ line ∈ p.solve.explanation, ShowsNegativeZero line.toList) ↔
      ∃ solution ∈ p.solve.solutions, Vanishes solution.realPart) := by
  refine ⟨?_, Solution.showsNegativeZero_decimals_iff re im, Solution.not_showsNegativeZero_fractions re im,
    p.analysis_showsVanishing⟩
  obtain ⟨w, hfixed, hrounded, hsign⟩ := Binary64.fixed_written hx
  refine ⟨w, hfixed, hrounded, hsign, ?_⟩
  rw [← w.showsNegativeZero_text_iff, ← x.showsNegativeZero_fixed_iff, hfixed, String.toList_ofList]

/-- One fifth below zero has six decimal places and a sign, and is no negative zero. -/
theorem fixed_nearest_and_negative_zero_fifth :
    (-0.2 : Binary64).isFinite = true ∧
      ∃ w : Fixed.Written 6, (-0.2 : Binary64).fixed = .ofList w.text ∧
        w.IsRounded (-0.2 : Binary64).value ∧ (w.negative = true ↔ (-0.2 : Binary64) < 0) ∧
        (w.text = negativeZero ↔ Vanishes (-0.2)) :=
  ⟨by decide +kernel,
    (fixed_nearest_and_negative_zero (by decide +kernel) ⟨-0.2, true⟩ ⟨1, true⟩ (.ofCoefficients .empty)).1⟩

/-- A tenth of a millionth below zero is shown as a negative zero, by itself, as the real part of a solution
and in the explanation. -/
theorem negative_zero_shown :
    (-0.0000001 : Binary64).fixed = "-0.000000" ∧
      (Polynomial.ofCoefficients (.ofList [(.zero, 1), (.one, 0.0000002), (.two, 1)])).solve.solutions.map
        (Solution.text false) = ["-0.000000 + i * 1.000000", "-0.000000 - i * 1.000000"] ∧
      (Polynomial.ofCoefficients
          (.ofList [(.zero, 1), (.one, 0.0000002), (.two, 1)])).solve.explanation.getLast? =
        some ("x₂ = (-b - i√-Δ) / 2a = (-(0.0000002) - i√3.99999999999996) / (2 * (1)) = " ++
          "-0.000000 - i * 1.000000") := by
  decide +kernel

end Quadra
