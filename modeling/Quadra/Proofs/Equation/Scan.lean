import Quadra.Equation.Scan

set_option autoImplicit false

/-!
# What the scanner finds

The kinds of the tokens do not depend on where the text starts, and they are found piece by piece: a
blank has none, a symbol one, and so has a run of digits and points that ends in front of another
character.
-/

namespace Quadra.Equation

/-- The tokens of a text in front of its end. -/
def tokensFrom (offset : Nat) (text : List Char) : List Token :=
  (scanFrom offset text).filter fun token => token.kind != .finish

/-! ## One token -/

theorem isBlank_eq_false_of_isDigit {c : Char} (h : c.isDigit = true) : Text.isBlank c = false := by
  have hrange : 48 ≤ c.toNat ∧ c.toNat ≤ 57 := by
    simpa [Char.isDigit, UInt32.le_iff_toNat_le] using h
  simp only [Text.isBlank, Text.blankRanges, List.any_cons, List.any_nil, Bool.or_false,
    Bool.or_eq_false_iff, Bool.and_eq_false_iff, decide_eq_false_iff_not]
  omega

theorem ofChar_ne_finish (c : Char) : Kind.ofChar c ≠ .finish := by
  unfold Kind.ofChar
  split <;> exact fun h => nomatch h

theorem tokensFrom_nil (offset : Nat) : tokensFrom offset [] = [] := by
  rw [tokensFrom, scanFrom]
  rfl

theorem tokensFrom_of_isBlank (offset : Nat) {c : Char} (hblank : Text.isBlank c = true)
    (rest : List Char) :
    tokensFrom offset (c :: rest) = tokensFrom (offset + c.utf8Size) rest := by
  rw [tokensFrom, scanFrom, if_pos hblank]
  rfl

theorem tokensFrom_of_startsNumber (offset : Nat) {c : Char} {rest : List Char}
    (hblank : ¬ Text.isBlank c = true) (hnumber : startsNumber c rest = true) :
    tokensFrom offset (c :: rest) =
      (let text := c :: rest.takeWhile isNumberChar
        let stop := offset + Text.byteLength text;
        ⟨.number text, ⟨offset, stop⟩⟩ :: tokensFrom stop (rest.dropWhile isNumberChar)) := by
  rw [tokensFrom, scanFrom, if_neg hblank, if_pos hnumber]
  rfl

theorem tokensFrom_of_symbol (offset : Nat) {c : Char} {rest : List Char}
    (hblank : ¬ Text.isBlank c = true) (hnumber : ¬ startsNumber c rest = true) :
    tokensFrom offset (c :: rest) =
      ⟨.ofChar c, ⟨offset, offset + c.utf8Size⟩⟩ :: tokensFrom (offset + c.utf8Size) rest := by
  rw [tokensFrom, scanFrom, if_neg hblank, if_neg hnumber]
  exact List.filter_cons_of_pos (bne_iff_ne.mpr (ofChar_ne_finish c))

/-- The last token is the end of the text, and no other. -/
theorem scanFrom_eq_tokensFrom (offset : Nat) (text : List Char) :
    scanFrom offset text =
      tokensFrom offset text ++
        [⟨.finish, ⟨offset + Text.byteLength text, offset + Text.byteLength text⟩⟩] := by
  fun_induction scanFrom offset text with
  | case1 offset =>
      rw [tokensFrom_nil]
      rfl
  | case2 offset c rest hblank ih =>
      rw [tokensFrom_of_isBlank offset hblank, ih, Text.byteLength_cons, Nat.add_assoc]
  | case3 offset c rest hblank hnumber text stop ih =>
      have hlength : Text.byteLength (c :: rest) =
          Text.byteLength text + Text.byteLength (rest.dropWhile isNumberChar) := by
        rw [← Text.byteLength_append, List.cons_append, List.takeWhile_append_dropWhile]
      rw [tokensFrom_of_startsNumber offset hblank hnumber, ih, hlength, ← Nat.add_assoc]
      rfl
  | case4 offset c rest hblank hnumber stop ih =>
      rw [tokensFrom_of_symbol offset hblank hnumber, ih, Text.byteLength_cons, ← Nat.add_assoc]
      rfl

/-! ## Kinds of tokens -/

/-- The kinds of the tokens of a text in front of its end. -/
def symbols (text : List Char) : List Kind := (tokensFrom 0 text).map Token.kind

/-- A text has the same kinds of tokens wherever it starts. -/
theorem map_kind_tokensFrom (offset : Nat) (text : List Char) :
    (tokensFrom offset text).map Token.kind = symbols text := by
  -- the other offset stays free, since both move on with the induction
  have hshift : ∀ offset', (tokensFrom offset text).map Token.kind =
      (tokensFrom offset' text).map Token.kind := by
    fun_induction scanFrom offset text with
    | case1 offset =>
        intro offset'
        rw [tokensFrom_nil, tokensFrom_nil]
    | case2 offset c rest hblank ih =>
        intro offset'
        rw [tokensFrom_of_isBlank offset hblank, tokensFrom_of_isBlank offset' hblank, ih]
    | case3 offset c rest hblank hnumber text stop ih =>
        intro offset'
        rw [tokensFrom_of_startsNumber offset hblank hnumber,
          tokensFrom_of_startsNumber offset' hblank hnumber]
        exact congrArg (Kind.number text :: ·) (ih _)
    | case4 offset c rest hblank hnumber stop ih =>
        intro offset'
        rw [tokensFrom_of_symbol offset hblank hnumber,
          tokensFrom_of_symbol offset' hblank hnumber]
        exact congrArg (Kind.ofChar c :: ·) (ih _)
  exact hshift 0

theorem map_kind_scan (source : String) :
    (scan source).map Token.kind = symbols source.toList ++ [.finish] := by
  rw [scan, scanFrom_eq_tokensFrom, List.map_append, map_kind_tokensFrom]
  rfl

/-- A blank has no token. -/
theorem symbols_of_isBlank {c : Char} (hblank : Text.isBlank c = true) (rest : List Char) :
    symbols (c :: rest) = symbols rest := by
  rw [symbols, tokensFrom_of_isBlank 0 hblank, map_kind_tokensFrom]

/-- A character that starts no number is a token by itself. -/
theorem symbols_of_symbol {c : Char} {rest : List Char} (hblank : ¬ Text.isBlank c = true)
    (hnumber : ¬ startsNumber c rest = true) :
    symbols (c :: rest) = .ofChar c :: symbols rest := by
  rw [symbols, tokensFrom_of_symbol 0 hblank hnumber]
  exact congrArg (Kind.ofChar c :: ·) (map_kind_tokensFrom _ rest)

/-- A number is one token, as long as it can be. -/
theorem symbols_of_startsNumber {c : Char} {rest : List Char} (hblank : ¬ Text.isBlank c = true)
    (hnumber : startsNumber c rest = true) :
    symbols (c :: rest) = .number (c :: rest.takeWhile isNumberChar) ::
      symbols (rest.dropWhile isNumberChar) := by
  rw [symbols, tokensFrom_of_startsNumber 0 hblank hnumber]
  exact congrArg (Kind.number _ :: ·) (map_kind_tokensFrom _ _)

/-- A digit and the digits and points behind it are one number, up to any other character. -/
theorem symbols_number_append {c : Char} {text rest : List Char}
    (hblank : ¬ Text.isBlank c = true) (hc : c.isDigit = true)
    (htext : ∀ c ∈ text, isNumberChar c = true) (hrest : ∀ c ∈ rest.head?, isNumberChar c = false) :
    symbols (c :: text ++ rest) = .number (c :: text) :: symbols rest := by
  have hstop : rest.takeWhile isNumberChar = [] ∧ rest.dropWhile isNumberChar = rest := by
    cases rest with
    | nil => exact ⟨rfl, rfl⟩
    | cons d rest =>
        have hd := hrest d rfl
        simp [hd]
  have htake : (text ++ rest).takeWhile isNumberChar = text := by
    rw [List.takeWhile_append_of_pos htext, hstop.1, List.append_nil]
  have hdrop : (text ++ rest).dropWhile isNumberChar = rest := by
    rw [List.dropWhile_append_of_pos htext, hstop.2]
  have hnumber : startsNumber c (text ++ rest) = true := by
    rw [startsNumber, hc]
    rfl
  rw [List.cons_append, symbols_of_startsNumber hblank hnumber, htake, hdrop]

end Quadra.Equation
