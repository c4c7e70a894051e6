import Mathlib.Logic.Relation
import Quadra.Proofs.Equation.Lexemes
import Quadra.Proofs.Equation.Places

set_option autoImplicit false

/-!
# Layout and letter case

A text can be cut where no token stands on both sides: the tokens of the whole are those of the two
parts (`tokensFrom_append`). So blanks may be put in there, and a run of blanks may be any other run, and
neither changes what is read (`parse_relayout`).
-/

namespace Quadra.Equation

open Text

/-! ## Cutting a text -/

/-- No token stands on both sides of this byte offset. -/
def IsBoundary (tokens : List Token) (offset : Nat) : Prop :=
  ∀ token ∈ tokens, token.span.hi ≤ offset ∨ offset ≤ token.span.lo

instance (tokens : List Token) (offset : Nat) : Decidable (IsBoundary tokens offset) :=
  List.decidableBAll _ tokens

/-- A run that is no longer than the first of two texts ends in it. -/
theorem takeWhile_append_of_byteLength_le {p : Char → Bool} {front back : List Char}
    (h : byteLength ((front ++ back).takeWhile p) ≤ byteLength front) :
    (front ++ back).takeWhile p = front.takeWhile p ∧
      (front ++ back).dropWhile p = front.dropWhile p ++ back := by
  by_cases hfront : front.dropWhile p = []
  · -- the run takes all of the first text, so it takes nothing of the second
    have hpos := List.dropWhile_eq_nil_iff.mp hfront
    have htake : (front ++ back).takeWhile p = front ++ back.takeWhile p :=
      List.takeWhile_append_of_pos hpos
    have hdrop : (front ++ back).dropWhile p = back.dropWhile p := List.dropWhile_append_of_pos hpos
    have hall : front.takeWhile p = front := by
      have := List.takeWhile_append_dropWhile (p := p) (l := front)
      rwa [hfront, List.append_nil] at this
    have hnone : back.takeWhile p = [] := by
      rw [htake, byteLength_append] at h
      exact (byteLength_eq_zero_iff _).mp (by omega)
    have hback : back.dropWhile p = back := by
      have := List.takeWhile_append_dropWhile (p := p) (l := back)
      rwa [hnone, List.nil_append] at this
    rw [htake, hdrop, hall, hnone, hfront, hback, List.append_nil, List.nil_append]
    exact ⟨rfl, rfl⟩
  · rw [List.takeWhile_append, List.dropWhile_append, if_neg, if_neg]
    · exact ⟨rfl, rfl⟩
    · rwa [List.isEmpty_iff]
    · intro hlength
      have := congrArg List.length (List.takeWhile_append_dropWhile (p := p) (l := front))
      rw [List.length_append, hlength] at this
      exact hfront (List.length_eq_zero_iff.mp (by omega))

theorem startsNumber_append {c : Char} {rest : List Char} (h : startsNumber c rest = true)
    (back : List Char) : startsNumber c (rest ++ back) = true := by
  rw [startsNumber_iff] at h ⊢
  rcases h with hdigit | ⟨hpoint, d, others, rfl, hd⟩
  · exact .inl hdigit
  · exact .inr ⟨hpoint, d, others ++ back, rfl, hd⟩

/-- A number that ends in front of the second part starts with characters of the first. -/
theorem startsNumber_of_append {c : Char} {rest back : List Char}
    (h : startsNumber c (rest ++ back) = true)
    (hle : byteLength ((rest ++ back).takeWhile isNumberChar) ≤ byteLength rest) :
    startsNumber c rest = true := by
  rw [startsNumber_iff] at h ⊢
  rcases h with hdigit | ⟨hpoint, d, others, hrest, hd⟩
  · exact .inl hdigit
  · cases rest with
    | cons d' rest =>
        obtain ⟨rfl, -⟩ := List.cons.inj hrest
        exact .inr ⟨hpoint, d', rest, rfl, hd⟩
    | nil =>
        -- the point would be a number with a digit of the second part
        have hchar : isNumberChar d = true := (isNumberChar_iff d).mpr (.inl hd)
        have hpos := d.utf8Size_pos
        rw [hrest, List.takeWhile_cons_of_pos hchar] at hle
        simp only [byteLength_cons, byteLength_nil] at hle
        omega

/-- A number that starts in front of a boundary ends there at the latest. -/
theorem IsBoundary.byteLength_le {offset : Nat} {c : Char} {rest back : List Char}
    (h : IsBoundary (tokensFrom offset (c :: (rest ++ back))) (offset + byteLength (c :: rest)))
    (hblank : ¬ isBlank c = true) (hnumber : startsNumber c (rest ++ back) = true) :
    byteLength ((rest ++ back).takeWhile isNumberChar) ≤ byteLength rest := by
  rw [tokensFrom_of_startsNumber offset hblank hnumber] at h
  have hfirst := (List.forall_mem_cons.mp h).1
  have hpos := c.utf8Size_pos
  simp only [byteLength_cons] at hfirst
  omega

/-- **A text is scanned in parts** when it is cut at a boundary. -/
theorem tokensFrom_append (offset : Nat) (front back : List Char)
    (h : IsBoundary (tokensFrom offset (front ++ back)) (offset + byteLength front)) :
    tokensFrom offset (front ++ back) =
      tokensFrom offset front ++ tokensFrom (offset + byteLength front) back := by
  fun_induction scanFrom offset front with
  | case1 offset =>
      rw [tokensFrom_nil]
      rfl
  | case2 offset c rest hblank ih =>
      rw [byteLength_cons, ← Nat.add_assoc] at h ⊢
      rw [List.cons_append, tokensFrom_of_isBlank offset hblank] at h ⊢
      rw [tokensFrom_of_isBlank offset hblank, ih h]
  | case3 offset c rest hblank hnumber text stop ih =>
      have hnumber' := startsNumber_append hnumber back
      obtain ⟨htake, hdrop⟩ := takeWhile_append_of_byteLength_le (h.byteLength_le hblank hnumber')
      have hlength : offset + byteLength (c :: rest) =
          stop + byteLength (rest.dropWhile isNumberChar) := by
        have hrest : c :: rest = text ++ rest.dropWhile isNumberChar := by
          rw [List.cons_append, List.takeWhile_append_dropWhile]
        rw [hrest, byteLength_append, ← Nat.add_assoc]
      rw [hlength] at h ⊢
      rw [List.cons_append, tokensFrom_of_startsNumber offset hblank hnumber', htake, hdrop] at h ⊢
      rw [tokensFrom_of_startsNumber offset hblank hnumber]
      exact congrArg (_ :: ·) (ih (List.forall_mem_cons.mp h).2)
  | case4 offset c rest hblank hnumber stop ih =>
      have hnumber' : ¬ startsNumber c (rest ++ back) = true := fun hstarts =>
        hnumber (startsNumber_of_append hstarts (h.byteLength_le hblank hstarts))
      rw [byteLength_cons, ← Nat.add_assoc] at h ⊢
      rw [List.cons_append, tokensFrom_of_symbol offset hblank hnumber'] at h ⊢
      rw [tokensFrom_of_symbol offset hblank hnumber, List.cons_append,
        ih (List.forall_mem_cons.mp h).2]

/-- A lexeme is a single character or a number. -/
theorem IsLexeme.eq_singleton_or {text : List Char} {kind : Kind} (h : IsLexeme text kind) :
    (∃ c, text = [c]) ∨ ∀ c ∈ text, isNumberChar c = true := by
  cases h with
  | number hnumber => exact .inr fun c hc => (isNumberChar_iff c).mpr (hnumber.1 c hc)
  | _ => exact .inl ⟨_, rfl⟩

/-- Only numbers go on behind their first character. -/
theorem IsLexeme.isNumberChar_of_append {front back : List Char} {c : Char} {kind : Kind}
    (h : IsLexeme (front ++ c :: back) kind) (hne : front ≠ []) : isNumberChar c = true := by
  rcases h.eq_singleton_or with ⟨d, hd⟩ | hchars
  · cases front with
    | nil => exact absurd rfl hne
    | cons => simp at hd
  · exact hchars c (List.mem_append_right front List.mem_cons_self)

/-- No token goes on in front of a character that no number has. -/
theorem isBoundary_of_head? (offset : Nat) (front : List Char) {back : List Char}
    (hback : ∀ c ∈ back.head?, isNumberChar c = false) :
    IsBoundary (tokensFrom offset (front ++ back)) (offset + byteLength front) := by
  intro token htoken
  obtain ⟨before, marked, after, htext, hspan, hlexeme, -⟩ := standsIn_tokensFrom _ _ token htoken
  rw [hspan]
  simp only
  rcases List.append_eq_append_iff.mp htext with ⟨m, rfl, -⟩ | ⟨m, rfl, hm⟩
  · -- the token starts behind the first part
    rw [byteLength_append]
    omega
  · rcases List.append_eq_append_iff.mp hm with ⟨m', rfl, -⟩ | ⟨m', rfl, rfl⟩
    · -- the token ends in the first part
      simp only [byteLength_append]
      omega
    · -- the token is cut, and what is left of it starts the second part
      simp only [byteLength_append]
      by_cases hempty : m = []
      · rw [hempty, byteLength_nil]
        omega
      · cases m' with
        | nil =>
            rw [byteLength_nil]
            omega
        | cons c m' =>
            have hchar := hlexeme.isNumberChar_of_append hempty
            rw [hback c rfl] at hchar
            cases hchar

/-- The symbols of a text that is cut in front of a character that no number has. -/
theorem symbols_append {front back : List Char}
    (hback : ∀ c ∈ back.head?, isNumberChar c = false) :
    symbols (front ++ back) = symbols front ++ symbols back := by
  have hboundary := isBoundary_of_head? 0 front hback
  rw [symbols, tokensFrom_append 0 front back hboundary, List.map_append, map_kind_tokensFrom,
    map_kind_tokensFrom]

/-- The symbols of a text that is cut at a boundary. -/
theorem symbols_append_of_isBoundary {front back : List Char}
    (h : IsBoundary (scanFrom 0 (front ++ back)) (byteLength front)) :
    symbols (front ++ back) = symbols front ++ symbols back := by
  have hboundary : IsBoundary (tokensFrom 0 (front ++ back)) (0 + byteLength front) := by
    intro token htoken
    rw [Nat.zero_add]
    exact h token (List.mem_of_mem_filter htoken)
  rw [symbols, tokensFrom_append 0 front back hboundary, List.map_append, map_kind_tokensFrom,
    map_kind_tokensFrom]

/-! ## Blanks between tokens -/

/-- A text of blanks. -/
def IsGap (gap : List Char) : Prop := ∀ c ∈ gap, isBlank c = true

instance (gap : List Char) : Decidable (IsGap gap) := List.decidableBAll _ gap

theorem symbols_gap_append {gap : List Char} (hgap : IsGap gap) (back : List Char) :
    symbols (gap ++ back) = symbols back := by
  induction gap with
  | nil => rfl
  | cons c gap ih =>
      obtain ⟨hc, hgap⟩ := List.forall_mem_cons.mp hgap
      rw [List.cons_append, symbols_of_isBlank hc, ih hgap]

/-- A gap parts the tokens in front of it from those behind it. -/
theorem symbols_append_gap_append {gap : List Char} (hgap : IsGap gap) (hne : gap ≠ [])
    (front back : List Char) :
    symbols (front ++ (gap ++ back)) = symbols front ++ symbols back := by
  have hhead : ∀ c ∈ (gap ++ back).head?, isNumberChar c = false := by
    intro c hc
    cases gap with
    | nil => exact absurd rfl hne
    | cons d gap =>
        cases hc
        refine Bool.eq_false_iff.mpr fun hchar => ?_
        have hblank := hgap c List.mem_cons_self
        rw [isBlank_eq_false_of_isNumberChar hchar] at hblank
        cases hblank
  rw [symbols_append hhead, symbols_gap_append hgap]

/-! ## Changes of the layout -/

/-- One change of a text: blanks are put in at a boundary of its tokens, a run of blanks gives way to
another one, or a variable is written in the other letter case. -/
inductive LayoutStep : List Char → List Char → Prop
  | insert {front gap back : List Char} (hgap : IsGap gap)
      (hboundary : IsBoundary (scanFrom 0 (front ++ back)) (byteLength front)) :
      LayoutStep (front ++ back) (front ++ (gap ++ back))
  | replace {front gap gap' back : List Char} (hgap : IsGap gap) (hne : gap ≠ []) (hgap' : IsGap gap')
      (hne' : gap' ≠ []) : LayoutStep (front ++ (gap ++ back)) (front ++ (gap' ++ back))
  | lower (front back : List Char) : LayoutStep (front ++ 'X' :: back) (front ++ 'x' :: back)
  | raise (front back : List Char) : LayoutStep (front ++ 'x' :: back) (front ++ 'X' :: back)

/-- A variable is one token, in either letter case. -/
theorem symbols_append_variable {c : Char} (hc : c = 'x' ∨ c = 'X') (front back : List Char) :
    symbols (front ++ c :: back) = symbols front ++ .variable :: symbols back := by
  have hback : ∀ d ∈ (c :: back).head?, isNumberChar d = false := by
    intro d hd
    cases hd
    rcases hc with rfl | rfl <;> rfl
  rw [symbols_append hback]
  rcases hc with rfl | rfl
  · exact congrArg (symbols front ++ ·) (symbols_of_symbol (by decide) (by simp [startsNumber]))
  · exact congrArg (symbols front ++ ·) (symbols_of_symbol (by decide) (by simp [startsNumber]))

/-- A step keeps the kinds of the tokens. -/
theorem LayoutStep.symbols_eq {text text' : List Char} (h : LayoutStep text text') :
    symbols text' = symbols text := by
  cases h with
  | @insert front gap back hgap hboundary =>
      rw [symbols_append_of_isBoundary hboundary]
      by_cases hne : gap = []
      · rw [hne, List.nil_append, symbols_append_of_isBoundary hboundary]
      · rw [symbols_append_gap_append hgap hne]
  | replace hgap hne hgap' hne' =>
      rw [symbols_append_gap_append hgap hne, symbols_append_gap_append hgap' hne']
  | lower front back =>
      rw [symbols_append_variable (.inl rfl), symbols_append_variable (.inr rfl)]
  | raise front back =>
      rw [symbols_append_variable (.inl rfl), symbols_append_variable (.inr rfl)]

/-- So does any number of steps. -/
theorem symbols_eq_of_reflTransGen {text text' : List Char}
    (h : Relation.ReflTransGen LayoutStep text text') : symbols text' = symbols text := by
  induction h with
  | refl => rfl
  | tail _ hstep ih => rw [hstep.symbols_eq, ih]

/-- **Layout and letter case do not matter.** After any number of steps a text has tokens of the same
kinds in the same order, numbers with their texts, and it is read as the same polynomial or has a fault
of the same cause. -/
theorem parse_relayout {source source' : String}
    (h : Relation.ReflTransGen LayoutStep source.toList source'.toList) :
    (scan source').map Token.kind = (scan source).map Token.kind ∧
      (∀ p, parse source' = .ok p ↔ parse source = .ok p) ∧
        (parse source').mapError Fault.cause = (parse source).mapError Fault.cause := by
  have hsymbols := symbols_eq_of_reflTransGen h
  have houtcome : (parse source').mapError Fault.cause = (parse source).mapError Fault.cause :=
    congrArg Logged.outcome (read_congr hsymbols)
  refine ⟨by rw [map_kind_scan, map_kind_scan, hsymbols], fun p => ?_, houtcome⟩
  rw [← mapError_eq_ok_iff Fault.cause, houtcome, mapError_eq_ok_iff]

/-- A wide blank in front of the equation, another one in front of the `=`, and a small letter. -/
theorem parse_relayout_half :
    Relation.ReflTransGen LayoutStep "X=.5".toList "\u3000x =.5".toList ∧
      (scan "\u3000x =.5").map Token.kind = [.variable, .equals, .number ['.', '5'], .finish] ∧
        parse "\u3000x =.5" = .ok (.ofCoefficients (.ofList [(.zero, -0.5), (.one, 1)])) := by
  have hstart : "X=.5".toList = ['X', '=', '.', '5'] := by decide +kernel
  have hstop : "\u3000x =.5".toList = ['\u3000', 'x', ' ', '=', '.', '5'] := by decide +kernel
  have hfirst : LayoutStep ['X', '=', '.', '5'] ['\u3000', 'X', '=', '.', '5'] :=
    @LayoutStep.insert [] ['\u3000'] ['X', '=', '.', '5'] (by decide +kernel) (by decide +kernel)
  have hsecond : LayoutStep ['\u3000', 'X', '=', '.', '5'] ['\u3000', 'X', ' ', '=', '.', '5'] :=
    @LayoutStep.insert ['\u3000', 'X'] [' '] ['=', '.', '5'] (by decide +kernel) (by decide +kernel)
  have hthird : LayoutStep ['\u3000', 'X', ' ', '=', '.', '5'] ['\u3000', 'x', ' ', '=', '.', '5'] :=
    .lower ['\u3000'] [' ', '=', '.', '5']
  have hsteps : Relation.ReflTransGen LayoutStep "X=.5".toList "\u3000x =.5".toList := by
    rw [hstart, hstop]
    exact ((Relation.ReflTransGen.single hfirst).tail hsecond).tail hthird
  obtain ⟨hkinds, hparse, -⟩ := parse_relayout hsteps
  refine ⟨hsteps, ?_, (hparse _).mpr ?_⟩
  · rw [hkinds]
    decide +kernel
  · decide +kernel

end Quadra.Equation
