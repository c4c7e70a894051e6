import Quadra.Proofs.Equation.Spans

set_option autoImplicit false

/-!
# Lexemes

The tokens of a text by its characters alone. `IsLexeme` says what spells each token, and `Tiles` that a
list of tokens is the whole text: they stand in it one behind the other, each is spelled by its part
and ends where it must, and only blanks are left out. The scanner finds such tokens, for every text:
`scan_lossless`.
-/

namespace Quadra.Equation

open Text

theorem byteLength_eq_zero_iff (text : List Char) : byteLength text = 0 ↔ text = [] := by
  cases text with
  | nil => simp
  | cons c text =>
      have hpos := c.utf8Size_pos
      simp only [byteLength_cons, reduceCtorEq, iff_false]
      omega

/-! ## What spells a token -/

/-- A number as it is written: digits and points, the first of which is a digit, or a point with a digit
behind it. It need not be a numeral (`1.2.3`). -/
def IsNumber (text : List Char) : Prop :=
  (∀ c ∈ text, c.isDigit = true ∨ c = '.') ∧
    ∃ d rest, d.isDigit = true ∧ (text = d :: rest ∨ text = '.' :: d :: rest)

/-- The characters that an equation is made of, apart from numbers. -/
def isEquationSymbol (c : Char) : Bool := c ∈ ['+', '-', '*', '^', '=', 'x', 'X']

/-- The characters spell a token of this kind. -/
inductive IsLexeme : List Char → Kind → Prop
  | plus : IsLexeme ['+'] .plus
  | minus : IsLexeme ['-'] .minus
  | times : IsLexeme ['*'] .times
  | power : IsLexeme ['^'] .power
  | equals : IsLexeme ['='] .equals
  | lowerCase : IsLexeme ['x'] .variable
  | upperCase : IsLexeme ['X'] .variable
  | number {text : List Char} (hnumber : IsNumber text) : IsLexeme text (.number text)
  | invalid {c : Char} (hblank : isBlank c = false) (hdigit : c.isDigit = false)
      (hsymbol : isEquationSymbol c = false) : IsLexeme [c] (.invalid c)

/-- A token ends in front of these characters: a number goes on as long as it can, and a point by itself
would be a number in front of a digit. -/
def EndsBefore : Kind → List Char → Prop
  | .number _, after => ∀ c ∈ after.head?, ¬ (c.isDigit = true ∨ c = '.')
  | .invalid c, after => c = '.' → ∀ d ∈ after.head?, d.isDigit = false
  | _, _ => True

theorem isNumberChar_iff (c : Char) : isNumberChar c = true ↔ c.isDigit = true ∨ c = '.' := by
  rw [isNumberChar, Bool.or_eq_true, beq_iff_eq]

theorem isBlank_eq_false_of_isNumberChar {c : Char} (h : isNumberChar c = true) :
    isBlank c = false := by
  rcases (isNumberChar_iff c).mp h with hdigit | rfl
  · exact isBlank_eq_false_of_isDigit hdigit
  · decide

theorem startsNumber_iff (c : Char) (rest : List Char) :
    startsNumber c rest = true ↔
      c.isDigit = true ∨ c = '.' ∧ ∃ d others, rest = d :: others ∧ d.isDigit = true := by
  rw [startsNumber, Bool.or_eq_true, Bool.and_eq_true, beq_iff_eq]
  cases rest <;> simp

/-- A number starts with a digit or a point. -/
theorem IsNumber.exists_cons {text : List Char} (h : IsNumber text) :
    ∃ c rest, text = c :: rest ∧ isNumberChar c = true := by
  obtain ⟨hchars, d, rest, hd, rfl | rfl⟩ := h
  · exact ⟨d, rest, rfl, (isNumberChar_iff d).mpr (.inl hd)⟩
  · exact ⟨'.', d :: rest, rfl, rfl⟩

/-- A number of one character is a digit. -/
theorem IsNumber.isDigit_of_singleton {c : Char} (h : IsNumber [c]) : c.isDigit = true := by
  obtain ⟨-, d, rest, hd, heq | heq⟩ := h
  · exact (List.cons.inj heq).1 ▸ hd
  · cases heq

/-- Characters spell at most one kind of token. -/
theorem IsLexeme.unique {text : List Char} {kind kind' : Kind} (h : IsLexeme text kind)
    (h' : IsLexeme text kind') : kind = kind' := by
  cases h with
  | number hnumber =>
      cases h' with
      | number => rfl
      | invalid _ hdigit =>
          rw [hnumber.isDigit_of_singleton] at hdigit
          cases hdigit
      | _ => exact absurd hnumber.isDigit_of_singleton (by decide)
  | invalid _ hdigit hsymbol =>
      cases h' with
      | number hnumber =>
          rw [hnumber.isDigit_of_singleton] at hdigit
          cases hdigit
      | invalid => rfl
      | _ => exact absurd hsymbol (by decide)
  | _ =>
      cases h' with
      | number hnumber => exact absurd hnumber.isDigit_of_singleton (by decide)
      | invalid _ _ hsymbol => exact absurd hsymbol (by decide)
      | _ => rfl

theorem IsLexeme.ne_nil {text : List Char} {kind : Kind} (h : IsLexeme text kind) : text ≠ [] := by
  cases h with
  | number hnumber =>
      obtain ⟨c, rest, rfl, -⟩ := hnumber.exists_cons
      exact List.cons_ne_nil c rest
  | _ => exact List.cons_ne_nil _ _

/-! ## The tokens of a scan

Each token by itself first, then a token and those behind it, and last the characters that no token
has. -/

/-- A number is scanned as long as it can be. -/
theorem isNumber_of_startsNumber {c : Char} {rest : List Char} (h : startsNumber c rest = true) :
    IsNumber (c :: rest.takeWhile isNumberChar) := by
  constructor
  · intro d hd
    rcases List.mem_cons.mp hd with rfl | hd
    · exact (isNumberChar_iff d).mp (isNumberChar_of_startsNumber h)
    · exact (isNumberChar_iff d).mp (List.mem_takeWhile_imp hd)
  · rcases (startsNumber_iff c rest).mp h with hdigit | ⟨rfl, d, others, rfl, hd⟩
    · exact ⟨c, _, hdigit, .inl rfl⟩
    · have hchar : isNumberChar d = true := (isNumberChar_iff d).mpr (.inl hd)
      exact ⟨d, _, hd, .inr (by rw [List.takeWhile_cons_of_pos hchar])⟩

theorem endsBefore_dropWhile (text rest : List Char) :
    EndsBefore (.number text) (rest.dropWhile isNumberChar) := by
  intro c hc hchar
  have hstop : isNumberChar c = false := by
    simpa [Option.mem_def.mp hc] using List.head?_dropWhile_not isNumberChar rest
  rw [(isNumberChar_iff c).mpr hchar] at hstop
  cases hstop

/-- A character that starts no number is a token by itself. -/
theorem isLexeme_ofChar {c : Char} {rest : List Char} (hblank : ¬ isBlank c = true)
    (hnumber : ¬ startsNumber c rest = true) :
    IsLexeme [c] (.ofChar c) ∧ EndsBefore (.ofChar c) rest := by
  rw [startsNumber_iff, not_or] at hnumber
  obtain ⟨hdigit, hpoint⟩ := hnumber
  unfold Kind.ofChar
  split
  case h_8 hplus hminus htimes hpower hequals hlower hupper =>
    have hsymbol : isEquationSymbol c = false := by
      simp only [isEquationSymbol, List.mem_cons, List.not_mem_nil, or_false, decide_eq_false_iff_not,
        not_or]
      exact ⟨hplus, hminus, htimes, hpower, hequals, hlower, hupper⟩
    refine ⟨.invalid (Bool.eq_false_iff.mpr hblank) (Bool.eq_false_iff.mpr hdigit) hsymbol, ?_⟩
    rintro rfl d hd
    obtain ⟨others, rfl⟩ := List.head?_eq_some_iff.mp hd
    exact Bool.eq_false_iff.mpr fun hd => hpoint ⟨rfl, d, others, rfl, hd⟩
  · exact ⟨.plus, trivial⟩
  · exact ⟨.minus, trivial⟩
  · exact ⟨.times, trivial⟩
  · exact ⟨.power, trivial⟩
  · exact ⟨.equals, trivial⟩
  · exact ⟨.lowerCase, trivial⟩
  · exact ⟨.upperCase, trivial⟩

/-- The token has its span in a text that starts at this byte offset, is spelled there, and ends where
it must. -/
def StandsIn (offset : Nat) (text : List Char) (token : Token) : Prop :=
  ∃ before marked after, text = before ++ (marked ++ after) ∧
    token.span = ⟨offset + byteLength before, offset + byteLength before + byteLength marked⟩ ∧
      IsLexeme marked token.kind ∧ EndsBefore token.kind after

/-- A token stands in a longer text as well, further back. -/
theorem StandsIn.append_left {offset : Nat} (front : List Char) {text : List Char} {token : Token}
    (h : StandsIn (offset + byteLength front) text token) : StandsIn offset (front ++ text) token := by
  obtain ⟨before, marked, after, rfl, hspan, hlexeme⟩ := h
  refine ⟨front ++ before, marked, after, (List.append_assoc ..).symm, ?_, hlexeme⟩
  rw [hspan, byteLength_append, Nat.add_assoc]

/-- A token at the start of a text. -/
theorem standsIn_append {offset : Nat} {marked : List Char} {kind : Kind} (h : IsLexeme marked kind)
    {after : List Char} (hafter : EndsBefore kind after) :
    StandsIn offset (marked ++ after) ⟨kind, ⟨offset, offset + byteLength marked⟩⟩ :=
  ⟨[], marked, after, rfl, rfl, h, hafter⟩

theorem standsIn_tokensFrom (offset : Nat) (text : List Char) :
    ∀ token ∈ tokensFrom offset text, StandsIn offset text token := by
  fun_induction scanFrom offset text with
  | case1 offset =>
      intro token htoken
      rw [tokensFrom_nil] at htoken
      cases htoken
  | case2 offset c rest hblank ih =>
      intro token htoken
      rw [tokensFrom_of_isBlank offset hblank] at htoken
      exact StandsIn.append_left [c] (ih token htoken)
  | case3 offset c rest hblank hnumber text stop ih =>
      have htext : c :: rest = text ++ rest.dropWhile isNumberChar := by
        rw [List.cons_append, List.takeWhile_append_dropWhile]
      intro token htoken
      rw [tokensFrom_of_startsNumber offset hblank hnumber] at htoken
      rw [htext]
      rcases List.mem_cons.mp htoken with rfl | htoken
      · exact standsIn_append (.number (isNumber_of_startsNumber hnumber)) (endsBefore_dropWhile _ rest)
      · exact StandsIn.append_left _ (ih token htoken)
  | case4 offset c rest hblank hnumber stop ih =>
      intro token htoken
      rw [tokensFrom_of_symbol offset hblank hnumber] at htoken
      obtain ⟨hlexeme, hends⟩ := isLexeme_ofChar hblank hnumber
      rcases List.mem_cons.mp htoken with rfl | htoken
      · exact standsIn_append hlexeme hends
      · exact StandsIn.append_left [c] (ih token htoken)

/-- A token that stands in front of another: it ends where the other starts or before, and between two
numbers there is a gap. -/
def Token.Precedes (a b : Token) : Prop :=
  a.span.hi ≤ b.span.lo ∧
    ∀ s t, a.kind = .number s → b.kind = .number t → a.span.hi < b.span.lo

theorem StandsIn.offset_le {offset : Nat} {text : List Char} {token : Token}
    (h : StandsIn offset text token) : offset ≤ token.span.lo := by
  obtain ⟨before, marked, after, -, hspan, -⟩ := h
  rw [hspan]
  exact Nat.le_add_right ..

/-- A number does not stand where a number ends. -/
theorem StandsIn.offset_lt {offset : Nat} {text : List Char} {token : Token}
    (h : StandsIn offset text token) {s t : List Char} (hends : EndsBefore (.number s) text)
    (hkind : token.kind = .number t) : offset < token.span.lo := by
  obtain ⟨before, marked, after, rfl, hspan, hlexeme, -⟩ := h
  rw [hspan]
  cases before with
  | nil =>
      rw [hkind] at hlexeme
      cases hlexeme with
      | number hnumber =>
          obtain ⟨c, rest, rfl, hc⟩ := hnumber.exists_cons
          exact absurd ((isNumberChar_iff c).mp hc) (hends c rfl)
  | cons c before =>
      have hpos := c.utf8Size_pos
      simp only [byteLength_cons]
      omega

theorem pairwise_tokensFrom (offset : Nat) (text : List Char) :
    (tokensFrom offset text).Pairwise Token.Precedes := by
  fun_induction scanFrom offset text with
  | case1 offset =>
      rw [tokensFrom_nil]
      exact .nil
  | case2 offset c rest hblank ih =>
      rw [tokensFrom_of_isBlank offset hblank]
      exact ih
  | case3 offset c rest hblank hnumber text stop ih =>
      rw [tokensFrom_of_startsNumber offset hblank hnumber]
      refine List.pairwise_cons.mpr ⟨fun token htoken => ?_, ih⟩
      have hstands := standsIn_tokensFrom _ _ token htoken
      refine ⟨hstands.offset_le, fun s t _ hkind => ?_⟩
      exact hstands.offset_lt (endsBefore_dropWhile s rest) hkind
  | case4 offset c rest hblank hnumber stop ih =>
      rw [tokensFrom_of_symbol offset hblank hnumber]
      refine List.pairwise_cons.mpr ⟨fun token htoken => ?_, ih⟩
      refine ⟨(standsIn_tokensFrom _ _ token htoken).offset_le, fun s _ hkind _ => ?_⟩
      -- a single character is no number
      have hlexeme := (isLexeme_ofChar hblank hnumber).1
      rw [show Kind.ofChar c = .number s from hkind] at hlexeme
      cases hlexeme with
      | number hdigit =>
          refine absurd ((startsNumber_iff c rest).mpr (.inl ?_)) hnumber
          exact hdigit.isDigit_of_singleton

theorem Spells.isBlank_eq_false {kind : Kind} {text : List Char} (h : Spells kind text) :
    ∀ c ∈ text, isBlank c = false := by
  intro c hc
  cases h with
  | number _ hchars => exact isBlank_eq_false_of_isNumberChar (hchars c hc)
  | symbol hblank => exact List.mem_singleton.mp hc ▸ hblank

/-- A character of two texts in a row is in the first or in the second. -/
theorem exists_of_append_eq_append_cons {s t before after : List Char} {c : Char}
    (h : s ++ t = before ++ c :: after) :
    (∃ m, s = before ++ c :: m) ∨ ∃ m, before = s ++ m ∧ t = m ++ c :: after := by
  rcases List.append_eq_append_iff.mp h with ⟨m, rfl, rfl⟩ | ⟨m, rfl, hm⟩
  · exact .inr ⟨m, rfl, rfl⟩
  · cases m with
    | nil => exact .inr ⟨[], by simp, hm.symm⟩
    | cons d m =>
        obtain ⟨rfl, -⟩ := List.cons.inj hm
        exact .inl ⟨m, rfl⟩

theorem LaidOut.offset_le {offset : Nat} {text : List Char} {tokens : List Token}
    (h : LaidOut offset text tokens) : ∀ token ∈ tokens, offset ≤ token.span.lo := by
  induction h with
  | nil => exact fun _ htoken => absurd htoken List.not_mem_nil
  | cons _ _ hlo hhi _ ih =>
      refine List.forall_mem_cons.mpr ⟨by omega, fun token htoken => ?_⟩
      have hle := ih token htoken
      omega

/-- The tokens have all characters but the blanks. -/
theorem LaidOut.covered_iff {offset : Nat} {text : List Char} {tokens : List Token}
    (h : LaidOut offset text tokens) {before after : List Char} {c : Char}
    (htext : text = before ++ c :: after) :
    (∃ token ∈ tokens, token.span.lo ≤ offset + byteLength before ∧
      offset + byteLength before < token.span.hi) ↔ isBlank c = false := by
  induction h generalizing before with
  | nil hgap =>
      have hblank := hgap c (htext ▸ List.mem_append_right before List.mem_cons_self)
      simp [hblank]
  | @cons offset gap marked rest token tokens hgap hmarked hlo hhi hrest ih =>
      have hbehind := hrest.offset_le
      rcases exists_of_append_eq_append_cons htext with ⟨m, rfl⟩ | ⟨before', rfl, hmarked_rest⟩
      · -- the character is in the gap in front of all tokens
        have hblank := hgap c (List.mem_append_right before List.mem_cons_self)
        have hpos := c.utf8Size_pos
        simp only [byteLength_append, byteLength_cons] at hlo
        rw [hblank]
        refine ⟨?_, fun hfalse => nomatch hfalse⟩
        rintro ⟨found, hfound, hle, -⟩
        rcases List.mem_cons.mp hfound with rfl | hfound
        · omega
        · have hge := hbehind found hfound
          omega
      · rcases exists_of_append_eq_append_cons hmarked_rest with ⟨m, rfl⟩ | ⟨before'', rfl, rfl⟩
        · -- the character is in the first token
          have hblank := hmarked.isBlank_eq_false c (List.mem_append_right before' List.mem_cons_self)
          have hpos := c.utf8Size_pos
          refine ⟨fun _ => hblank, fun _ => ⟨token, List.mem_cons_self, ?_⟩⟩
          simp only [byteLength_append, byteLength_cons] at hhi ⊢
          omega
        · -- the character is behind the first token
          have hoffset : offset + byteLength (gap ++ (marked ++ before'')) =
              token.span.hi + byteLength before'' := by
            simp only [byteLength_append]
            omega
          rw [hoffset, ← ih rfl, List.exists_mem_cons_iff]
          refine or_iff_right ?_
          omega

/-! ## All tokens of a text -/

/-- The tokens are the whole text. -/
structure Tiles (text : List Char) (tokens : List Token) : Prop where
  /-- The span of a token covers a part of the text, which is not empty and spells its kind and no other,
  and the token ends where it must. -/
  spelled : ∀ token ∈ tokens, token.span.lo < token.span.hi ∧ ∃ before marked after,
    Covers text token.span before marked after ∧ (∀ kind, IsLexeme marked kind ↔ kind = token.kind) ∧
      EndsBefore token.kind after
  /-- The spans are in the order of the text and do not overlap, and numbers do not touch. -/
  ordered : tokens.Pairwise Token.Precedes
  /-- A character is in one of the spans when it is not blank, and only then. -/
  covered : ∀ before c after, text = before ++ c :: after →
    ((∃ token ∈ tokens, token.span.lo ≤ byteLength before ∧ byteLength before < token.span.hi) ↔
      isBlank c = false)

theorem tiles_tokensFrom (text : List Char) : Tiles text (tokensFrom 0 text) where
  spelled token htoken := by
    obtain ⟨before, marked, after, htext, hspan, hlexeme, hends⟩ :=
      standsIn_tokensFrom 0 text token htoken
    rw [Nat.zero_add] at hspan
    refine ⟨?_, before, marked, after, ⟨htext, hspan⟩, fun kind => ?_, hends⟩
    · have hpos : byteLength marked ≠ 0 := fun hzero =>
        hlexeme.ne_nil ((byteLength_eq_zero_iff marked).mp hzero)
      rw [hspan]
      simp only
      omega
    · exact ⟨fun hkind => hkind.unique hlexeme, fun hkind => hkind ▸ hlexeme⟩
  ordered := pairwise_tokensFrom 0 text
  covered before c after htext := by
    have hcovered := (laidOut_tokensFrom 0 text).covered_iff htext
    rwa [Nat.zero_add] at hcovered

/-- **The scanner is lossless**, for every text: its tokens are the whole text, and behind them is one
end, which stands behind the last character. -/
theorem scan_lossless (source : String) :
    ∃ tokens, Tiles source.toList tokens ∧ (∀ token ∈ tokens, token.kind ≠ .finish) ∧
      scan source = tokens ++
        [⟨.finish, ⟨byteLength source.toList, byteLength source.toList⟩⟩] := by
  refine ⟨tokensFrom 0 source.toList, tiles_tokensFrom source.toList, ?_, ?_⟩
  · intro token htoken
    exact bne_iff_ne.mp (List.mem_filter.mp htoken).2
  · rw [scan, scanFrom_eq_tokensFrom, Nat.zero_add]

end Quadra.Equation
