import Quadra.Proofs.Binary64.Symmetry
import Quadra.Proofs.Equation.Canonical
import Quadra.Proofs.Equation.Layout

set_option autoImplicit false

/-!
# Transposition

The terms of the right side may be written behind those of the left side, with the opposite signs and
with a zero on the right side in their place. The reader meets the same monomials in the same order, and
a zero in the end, which no sum notices: `parse_transposed`.
-/

namespace Quadra.Equation

open Text

/-! ## Opposite signs -/

/-- The other one of the two signs. Any other character stays. -/
def oppositeSign : Char → Char
  | '+' => '-'
  | '-' => '+'
  | c => c

/-- The token of the other sign. Any other token stays. -/
def Kind.opposite : Kind → Kind
  | .plus => .minus
  | .minus => .plus
  | kind => kind

/-- The text of a side on the other hand of the `=`: all signs, each a token by itself, are the opposite
ones, and a first term without a sign gets a minus. -/
def transposed (side : String) : String :=
  let opposite := String.ofList (side.toList.map oppositeSign)
  if (scan side).head?.any (·.kind.isSign) then opposite else "-" ++ opposite

theorem oppositeSign_cases (c : Char) :
    c = '+' ∨ c = '-' ∨ oppositeSign c = c ∧ (Kind.ofChar c).opposite = Kind.ofChar c := by
  by_cases hplus : c = '+'
  · exact .inl hplus
  · by_cases hminus : c = '-'
    · exact .inr (.inl hminus)
    · refine .inr (.inr ⟨?_, ?_⟩)
      · unfold oppositeSign
        split
        · exact absurd rfl hplus
        · exact absurd rfl hminus
        · rfl
      · unfold Kind.ofChar
        split
        · exact absurd rfl hplus
        · exact absurd rfl hminus
        all_goals rfl

theorem ofChar_oppositeSign (c : Char) : Kind.ofChar (oppositeSign c) = (Kind.ofChar c).opposite := by
  rcases oppositeSign_cases c with rfl | rfl | ⟨hc, hkind⟩
  · rfl
  · rfl
  · rw [hc, hkind]

/-- A sign and its opposite are of the same class. -/
theorem class_oppositeSign (c : Char) :
    isBlank (oppositeSign c) = isBlank c ∧ (oppositeSign c).isDigit = c.isDigit ∧
      (oppositeSign c == '.') = (c == '.') := by
  rcases oppositeSign_cases c with rfl | rfl | ⟨hc, -⟩
  · decide +kernel
  · decide +kernel
  · rw [hc]
    exact ⟨rfl, rfl, rfl⟩

theorem isNumberChar_oppositeSign (c : Char) : isNumberChar (oppositeSign c) = isNumberChar c := by
  obtain ⟨-, hdigit, hpoint⟩ := class_oppositeSign c
  rw [isNumberChar, isNumberChar, hdigit, hpoint]

theorem startsNumber_oppositeSign (c : Char) (rest : List Char) :
    startsNumber (oppositeSign c) (rest.map oppositeSign) = startsNumber c rest := by
  obtain ⟨-, hdigit, hpoint⟩ := class_oppositeSign c
  cases rest with
  | nil => simp [startsNumber, hdigit, hpoint]
  | cons d rest => simp [startsNumber, hdigit, hpoint, (class_oppositeSign d).2.1]

/-- No sign is part of a number. -/
theorem oppositeSign_of_isNumberChar {c : Char} (h : isNumberChar c = true) : oppositeSign c = c := by
  rcases oppositeSign_cases c with rfl | rfl | ⟨hc, -⟩
  · cases h
  · cases h
  · exact hc

theorem map_oppositeSign_of_isNumberChar {text : List Char}
    (h : ∀ c ∈ text, isNumberChar c = true) : text.map oppositeSign = text := by
  rw [List.map_congr_left fun c hc => oppositeSign_of_isNumberChar (h c hc), List.map_id']

/-- The tokens of the text with the opposite signs. -/
theorem symbols_map_oppositeSign (text : List Char) :
    symbols (text.map oppositeSign) = (symbols text).map Kind.opposite := by
  induction 0, text using scanFrom.induct with
  | case1 offset =>
      rw [List.map_nil, symbols, tokensFrom_nil]
      rfl
  | case2 offset c rest hblank ih =>
      have hblank' : isBlank (oppositeSign c) = true := (class_oppositeSign c).1.trans hblank
      rw [List.map_cons, symbols_of_isBlank hblank', symbols_of_isBlank hblank, ih]
  | case3 offset c rest hblank hnumber text stop ih =>
      -- the number stays, and the run behind its first character ends where it did
      have hc : oppositeSign c = c := oppositeSign_of_isNumberChar (isNumberChar_of_startsNumber hnumber)
      have hnumber' : startsNumber c (rest.map oppositeSign) = true := by
        rw [← hc, startsNumber_oppositeSign, hnumber]
      have htest : isNumberChar ∘ oppositeSign = isNumberChar := funext isNumberChar_oppositeSign
      have htake : (rest.map oppositeSign).takeWhile isNumberChar = rest.takeWhile isNumberChar := by
        rw [List.takeWhile_map, htest]
        exact map_oppositeSign_of_isNumberChar fun d hd => List.mem_takeWhile_imp hd
      have hdrop : (rest.map oppositeSign).dropWhile isNumberChar =
          (rest.dropWhile isNumberChar).map oppositeSign := by
        rw [List.dropWhile_map, htest]
      rw [List.map_cons, hc, symbols_of_startsNumber hblank hnumber', htake, hdrop, ih,
        symbols_of_startsNumber hblank hnumber]
      rfl
  | case4 offset c rest hblank hnumber stop ih =>
      have hblank' : ¬ isBlank (oppositeSign c) = true := by rwa [(class_oppositeSign c).1]
      have hnumber' : ¬ startsNumber (oppositeSign c) (rest.map oppositeSign) = true := by
        rwa [startsNumber_oppositeSign]
      rw [List.map_cons, symbols_of_symbol hblank' hnumber', symbols_of_symbol hblank hnumber, ih,
        List.map_cons, ofChar_oppositeSign]

/-! ## Tokens of the transposed side -/

/-- The tokens of a side on the other hand of the `=`. -/
def transposedKinds (kinds : List Kind) : List Kind :=
  if kinds.head?.any Kind.isSign then kinds.map Kind.opposite else .minus :: kinds.map Kind.opposite

theorem any_isSign_head?_scan (side : String) :
    (scan side).head?.any (·.kind.isSign) = (symbols side.toList).head?.any Kind.isSign := by
  have hscan : (scan side).head?.any (·.kind.isSign) =
      ((scan side).map Token.kind).head?.any Kind.isSign := by
    rw [List.head?_map, Option.any_map]
  rw [hscan, map_kind_scan]
  cases symbols side.toList <;> rfl

theorem symbols_transposed (side : String) :
    symbols (transposed side).toList = transposedKinds (symbols side.toList) := by
  unfold transposed transposedKinds
  rw [any_isSign_head?_scan]
  split
  · rw [String.toList_ofList, symbols_map_oppositeSign]
  · have htext : ("-" ++ String.ofList (side.toList.map oppositeSign)).toList =
        '-' :: side.toList.map oppositeSign := by
      simp
    rw [htext, symbols_operator rfl, symbols_map_oppositeSign]
    rfl

/-- A text has a token unless it is blank. -/
theorem symbols_ne_nil {text : List Char} (h : ∃ c ∈ text, isBlank c = false) : symbols text ≠ [] := by
  obtain ⟨c, hc, hblank⟩ := h
  obtain ⟨before, after, rfl⟩ := List.append_of_mem hc
  obtain ⟨token, htoken, -⟩ := ((laidOut_tokensFrom 0 _).covered_iff rfl).mpr hblank
  exact List.ne_nil_of_mem (List.mem_map_of_mem htoken)

/-- An `=` among the tokens stands in the text. -/
theorem equals_notMem_symbols {text : List Char} (h : '=' ∉ text) : Kind.equals ∉ symbols text := by
  intro hmem
  obtain ⟨token, htoken, hkind⟩ := List.mem_map.mp hmem
  obtain ⟨before, marked, after, rfl, -, hlexeme, -⟩ := standsIn_tokensFrom 0 text token htoken
  rw [hkind] at hlexeme
  cases hlexeme with
  | equals => exact h (by simp)

theorem opposite_ne_equals {kind : Kind} (h : kind ≠ .equals) : kind.opposite ≠ .equals := by
  cases kind with
  | equals => exact absurd rfl h
  | _ =>
      intro heq
      cases heq

theorem equals_notMem_transposedKinds {kinds : List Kind} (h : Kind.equals ∉ kinds) :
    Kind.equals ∉ transposedKinds kinds := by
  have hmap : Kind.equals ∉ kinds.map Kind.opposite := by
    intro hmem
    obtain ⟨kind, hkind, heq⟩ := List.mem_map.mp hmem
    exact opposite_ne_equals (fun hequals => h (hequals ▸ hkind)) heq
  unfold transposedKinds
  split
  · exact hmap
  · simp [hmap]

/-! ## Terms of the transposed side -/

theorem isSign_opposite (kind : Kind) : kind.opposite.isSign = kind.isSign := by
  cases kind <;> rfl

theorem isSign_head?_map_opposite {kinds : List Kind} (h : ∀ kind ∈ kinds.head?, kind.isSign = true) :
    ∀ kind ∈ (kinds.map Kind.opposite).head?, kind.isSign = true := by
  simpa [isSign_opposite] using h

theorem opposite_of_isSign_eq_false {kind : Kind} (h : kind.isSign = false) : kind.opposite = kind := by
  cases kind with
  | plus => cases h
  | minus => cases h
  | _ => rfl

theorem map_opposite_of_isSign_eq_false {kinds : List Kind} (h : ∀ kind ∈ kinds, kind.isSign = false) :
    kinds.map Kind.opposite = kinds := by
  rw [List.map_congr_left fun kind hkind => opposite_of_isSign_eq_false (h kind hkind), List.map_id']

/-- A term adds on the left side what it adds with the opposite sign on the right side. -/
theorem readTerm_left_eq_right {term term' : List Token} (hbody : bodyOf term' = bodyOf term)
    (hsign : isSubtracted term' = !isSubtracted term) : readTerm .left term' = readTerm .right term := by
  unfold readTerm
  rw [hbody, hsign]
  cases Monomial.read (bodyOf term) with
  | error flaw => rfl
  | ok m =>
      cases isSubtracted term with
      | false => rfl
      | true =>
          show Except.ok (Monomial.mk m.coefficient m.power) = .ok ⟨- -m.coefficient, m.power⟩
          rw [Binary64.opposite_opposite]

theorem readTerm_opposite {first : Kind} (hfirst : first.isSign = true) (inner : List Kind) :
    readTerm .left ((first.opposite :: inner).map Token.ofKind) =
      readTerm .right ((first :: inner).map Token.ofKind) := by
  have hfirst' : first.opposite.isSign = true := (isSign_opposite first).trans hfirst
  apply readTerm_left_eq_right
  · rw [List.map_cons, List.map_cons, bodyOf_of_isSign hfirst', bodyOf_of_isSign hfirst]
  · cases first with
    | plus => rfl
    | minus => rfl
    | _ => cases hfirst

/-- A term without a sign gets a minus. -/
theorem readTerm_minus_cons {first : Kind} (hfirst : first.isSign = false) (inner : List Kind) :
    readTerm .left ((.minus :: first :: inner).map Token.ofKind) =
      readTerm .right ((first :: inner).map Token.ofKind) := by
  apply readTerm_left_eq_right
  · rw [List.map_cons, bodyOf_of_isSign rfl, List.map_cons, bodyOf_of_isSign_eq_false hfirst]
  · have hnone : isSubtracted ((first :: inner).map Token.ofKind) = false :=
      isSubtracted_of_isSign_eq_false hfirst _
    rw [hnone]
    rfl

/-- Signed terms add the same when all signs are the opposite ones. -/
theorem readings_map_opposite {kinds : List Kind} (hhead : ∀ kind ∈ kinds.head?, kind.isSign = true) :
    readings .left (kinds.map Kind.opposite) = readings .right kinds := by
  induction kinds using pieces_induction Kind.isSign with
  | nil => rfl
  | piece first inner rest hinner hrest ih =>
      rw [List.map_cons, List.map_append, map_opposite_of_isSign_eq_false hinner,
        readings_cons_append .left _ hinner (isSign_head?_map_opposite hrest),
        readings_cons_append .right first hinner hrest, readTerm_opposite (hhead first rfl), ih hrest]

/-- The terms of a side add the same on the other hand of the `=`. -/
theorem readings_transposedKinds {kinds : List Kind} (hne : kinds ≠ []) :
    readings .left (transposedKinds kinds) = readings .right kinds := by
  obtain ⟨first, kinds, rfl⟩ := List.exists_cons_of_ne_nil hne
  unfold transposedKinds
  rw [List.head?_cons, Option.any_some]
  by_cases hsign : first.isSign = true
  · rw [if_pos hsign]
    apply readings_map_opposite
    intro kind hkind
    cases hkind
    exact hsign
  · -- the first term has a minus now, and all others have the opposite signs
    rw [if_neg hsign]
    have hfirst : first.isSign = false := Bool.eq_false_iff.mpr hsign
    obtain ⟨inner, rest, rfl, hinner, hrest⟩ := exists_piece Kind.isSign kinds
    have hpiece : ∀ kind ∈ first :: inner, kind.isSign = false :=
      List.forall_mem_cons.mpr ⟨hfirst, hinner⟩
    rw [← List.cons_append, List.map_append, map_opposite_of_isSign_eq_false hpiece,
      readings_cons_append .left .minus hpiece (isSign_head?_map_opposite hrest),
      readTerm_minus_cons hfirst, readings_map_opposite hrest, List.cons_append,
      readings_cons_append .right first hinner hrest]

theorem isSign_head?_transposedKinds (kinds : List Kind) :
    ∀ kind ∈ (transposedKinds kinds).head?, kind.isSign = true := by
  unfold transposedKinds
  split
  · rename_i hsign
    apply isSign_head?_map_opposite
    intro kind hkind
    rwa [Option.mem_def.mp hkind, Option.any_some] at hsign
  · intro kind hkind
    cases hkind
    rfl

/-! ## A zero in the end -/

/-- The zero that stands alone on the right side. It is subtracted. -/
def zeroMonomial : Monomial := ⟨.zero true, .zero⟩

theorem readings_zero : readings .right [.number ['0']] = [.ok zeroMonomial] := by
  decide +kernel

theorem sumAt_append_zeroMonomial {ms : List Monomial} (h : StaysFinite ms) (n : Power) :
    sumAt n (ms ++ [zeroMonomial]) = sumAt n ms := by
  rw [sumAt_append_singleton]
  split
  · exact Binary64.add_negative_zero (h ms List.prefix_rfl n)
  · rfl

theorem staysFinite_append_zeroMonomial (ms : List Monomial) :
    StaysFinite (ms ++ [zeroMonomial]) ↔ StaysFinite ms := by
  rw [staysFinite_append_singleton]
  refine and_iff_left_of_imp fun h => ?_
  rw [sumAt_append_zeroMonomial h]
  exact h ms List.prefix_rfl _

theorem ofCoefficients_totals_append_zeroMonomial {ms : List Monomial} (h : StaysFinite ms) :
    Polynomial.ofCoefficients (totals (ms ++ [zeroMonomial])) = .ofCoefficients (totals ms) := by
  apply Polynomial.ext_find?
  intro n
  rw [find?_ofCoefficients_totals, find?_ofCoefficients_totals, sumAt_append_zeroMonomial h]

/-! ## Both equations -/

theorem symbols_equation (left right : String) :
    symbols (left ++ " = " ++ right).toList =
      symbols left.toList ++ .equals :: symbols right.toList := by
  have htext : (left ++ " = " ++ right).toList = left.toList ++ ' ' :: '=' :: ' ' :: right.toList := by
    simp
  rw [htext, symbols_append (isNumberChar_head?_blank _), symbols_blank, symbols_operator rfl,
    symbols_blank]
  rfl

theorem symbols_zero : symbols ['0'] = [.number ['0']] := by
  decide +kernel

theorem symbols_transposed_equation (left right : String) :
    symbols (left ++ " " ++ transposed right ++ " = 0").toList =
      symbols left.toList ++ transposedKinds (symbols right.toList) ++ .equals :: [.number ['0']] := by
  have htext : (left ++ " " ++ transposed right ++ " = 0").toList =
      (left ++ " " ++ transposed right ++ " = " ++ "0").toList := by
    simp
  have hleft : (left ++ " " ++ transposed right).toList =
      left.toList ++ ' ' :: (transposed right).toList := by
    simp
  rw [htext, symbols_equation, hleft, symbols_append (isNumberChar_head?_blank _), symbols_blank,
    symbols_transposed]
  exact congrArg (_ ++ .equals :: ·) symbols_zero

/-- **Everything may be moved to the left side.** Two sides with a token each and without an `=` are read
as the same polynomial, or not read at all, when the right side is transposed and a zero takes its
place. -/
theorem parse_transposed {left right : String} (hleft : ∃ c ∈ left.toList, isBlank c = false)
    (hright : ∃ c ∈ right.toList, isBlank c = false) (hl : '=' ∉ left.toList)
    (hr : '=' ∉ right.toList) (p : Polynomial) :
    parse (left ++ " = " ++ right) = .ok p ↔
      parse (left ++ " " ++ transposed right ++ " = 0") = .ok p := by
  have hlne := symbols_ne_nil hleft
  have hrne := symbols_ne_nil hright
  have hl := equals_notMem_symbols hl
  have hr := equals_notMem_symbols hr
  have hlr : Kind.equals ∉ symbols left.toList ++ transposedKinds (symbols right.toList) := by
    simp [hl, equals_notMem_transposedKinds hr]
  rw [parse_eq_ok_iff_of_symbols (symbols_equation left right) hl hr,
    parse_eq_ok_iff_of_symbols (symbols_transposed_equation left right) hlr (by decide),
    readings_append .left _ (isSign_head?_transposedKinds _), readings_transposedKinds hrne,
    readings_zero]
  constructor
  · rintro ⟨-, -, ms, hms, hfinite, rfl⟩
    refine ⟨by simp [hlne], by simp, ms ++ [zeroMonomial], ?_, ?_, ?_⟩
    · rw [hms, List.map_append]
      rfl
    · exact (staysFinite_append_zeroMonomial ms).mpr hfinite
    · exact (ofCoefficients_totals_append_zeroMonomial hfinite).symm
  · -- the last monomial that is read is the zero
    rintro ⟨-, -, all, hall, hfinite, rfl⟩
    obtain ⟨ms, last, rfl, hms, hlast⟩ := List.map_eq_append_iff.mp hall.symm
    obtain ⟨m, rfl, hm⟩ := List.map_eq_singleton_iff.mp hlast
    obtain rfl := Except.ok.inj hm
    have hfinite := (staysFinite_append_zeroMonomial ms).mp hfinite
    exact ⟨hlne, hrne, ms, hms.symm, hfinite, ofCoefficients_totals_append_zeroMonomial hfinite⟩

/-- A sum that starts without a sign. -/
theorem parse_transposed_sum :
    (∃ c ∈ "X^2 - 1".toList, isBlank c = false) ∧ (∃ c ∈ " .5 + 3x".toList, isBlank c = false) ∧
      '=' ∉ "X^2 - 1".toList ∧ '=' ∉ " .5 + 3x".toList ∧ transposed " .5 + 3x" = "- .5 - 3x" ∧
        (∀ p, parse "X^2 - 1 =  .5 + 3x" = .ok p ↔ parse "X^2 - 1 - .5 - 3x = 0" = .ok p) ∧
          parse "X^2 - 1 - .5 - 3x = 0" =
            .ok (.ofCoefficients (.ofList [(.zero, -1.5), (.one, -3), (.two, 1)])) := by
  have hleft : ∃ c ∈ "X^2 - 1".toList, isBlank c = false :=
    ⟨'X', by decide +kernel, by decide +kernel⟩
  have hright : ∃ c ∈ " .5 + 3x".toList, isBlank c = false :=
    ⟨'x', by decide +kernel, by decide +kernel⟩
  have hl : '=' ∉ "X^2 - 1".toList := by decide +kernel
  have hr : '=' ∉ " .5 + 3x".toList := by decide +kernel
  have hline : "X^2 - 1" ++ " = " ++ " .5 + 3x" = "X^2 - 1 =  .5 + 3x" := by decide +kernel
  have hmoved : "X^2 - 1" ++ " " ++ transposed " .5 + 3x" ++ " = 0" = "X^2 - 1 - .5 - 3x = 0" := by
    decide +kernel
  have hparse := parse_transposed hleft hright hl hr
  rw [hline, hmoved] at hparse
  refine ⟨hleft, hright, hl, hr, by decide +kernel, hparse, (hparse _).mp ?_⟩
  decide +kernel

end Quadra.Equation
