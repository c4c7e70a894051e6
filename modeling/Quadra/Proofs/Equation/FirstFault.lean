import Quadra.Proofs.Equation.EqualsSigns

set_option autoImplicit false

/-!
# The first fault

An equation with one `=` is read in steps: the left side must have a token, its terms are added from left
to right, and then the same for the right side. The fault of the equation is that of the first step that
fails, and the text and span of the fault are those of the term, from its first token to its last:
`parse_first_fault`.
-/

namespace Quadra.Equation

open Text

/-! ## Sides in a text -/

namespace Side

/-- The characters in front of a side, when the `=` stands behind `l`. -/
def front (l : List Char) : Side → List Char
  | .left => []
  | .right => l ++ ['=']

/-- The characters of a side, when the `=` stands between `l` and `r`. -/
def text (l r : List Char) : Side → List Char
  | .left => l
  | .right => r

/-- The tokens of a side. -/
def tokens (l r : List Char) (side : Side) : List Token :=
  tokensFrom (byteLength (side.front l)) (side.text l r)

end Side

/-- The token of an `=` that stands behind these characters. -/
def equalsBehind (l : List Char) : Token := ⟨.equals, ⟨byteLength l, byteLength l + 1⟩⟩

/-- The tokens of an equation are those of its sides, with the `=` between them. -/
theorem tokensFrom_equation (l r : List Char) :
    tokensFrom 0 (l ++ '=' :: r) =
      Side.left.tokens l r ++ equalsBehind l :: Side.right.tokens l r := by
  have hfront : byteLength (Side.right.front l) = byteLength l + 1 := byteLength_append l ['=']
  rw [tokensFrom_append_equals, Nat.zero_add, Side.tokens, Side.tokens, hfront]
  rfl

/-! ## Checks -/

/-- A step in which an equation is read: a side must have a token, or a term is added. -/
inductive Check
  | side (side : Side) (tokens : List Token)
  | term (side : Side) (term : List Token)

/-- The steps of a side. -/
def sideChecks (side : Side) (tokens : List Token) : List Check :=
  .side side tokens :: (splitTerms tokens).map (.term side)

/-- The steps of an equation with an `=` between `l` and `r`, in their order. -/
def checks (l r : List Char) : List Check :=
  sideChecks .left (Side.left.tokens l r) ++ sideChecks .right (Side.right.tokens l r)

/-- These steps do not fail one behind the other, and their terms add these monomials. -/
inductive Pass : List Check → List Monomial → Prop
  | nil : Pass [] []
  | side {steps : List Check} {ms : List Monomial} {side : Side} {tokens : List Token}
      (before : Pass steps ms) (hne : tokens ≠ []) : Pass (steps ++ [.side side tokens]) ms
  | term {steps : List Check} {ms : List Monomial} {side : Side} {term : List Token} {m : Monomial}
      (before : Pass steps ms) (hread : readTerm side term = .ok m)
      (hsum : (sumAt m.power (ms ++ [m])).isFinite = true) :
      Pass (steps ++ [.term side term]) (ms ++ [m])

namespace Check

/-- The step fails with this flaw behind terms that add these monomials: a side has no token, a term
cannot be read, or it makes a sum infinite. -/
inductive Fails (ms : List Monomial) : Check → Flaw → Prop
  | emptySide (side : Side) : Fails ms (.side side []) (.emptySide side)
  | unreadable {side : Side} {term : List Token} {flaw : Flaw}
      (hread : readTerm side term = .error flaw) : Fails ms (.term side term) flaw
  | tooLarge {side : Side} {term : List Token} {m : Monomial} (hread : readTerm side term = .ok m)
      (hsum : (sumAt m.power (ms ++ [m])).isFinite = false) :
      Fails ms (.term side term) (.tooLarge m.power)

/-- The fault that is reported for a flaw of the step. -/
def fault (source : List Char) (equals : Token) (flaw : Flaw) : Check → Fault
  | .side _ _ => .term [] flaw equals.span
  | .term _ run => .term ((spanOf run).slice source) flaw (spanOf run)

end Check

/-- The fault is that of the first of the steps that fails. -/
def FirstFailure (source : List Char) (equals : Token) (steps : List Check) (fault : Fault) : Prop :=
  ∃ before check after ms flaw, steps = before ++ check :: after ∧ Pass before ms ∧
    check.Fails ms flaw ∧ fault = check.fault source equals flaw

/-- The outcome of these steps: all pass and give the sums, or the first fault. -/
def Outcome (source : List Char) (equals : Token) (steps : List Check) : Except Fault Sums → Prop
  | .ok result => ∃ ms, Pass steps ms ∧ result = sums ms
  | .error fault => FirstFailure source equals steps fault

/-- The steps behind a failure do not matter. -/
theorem FirstFailure.append_right {source : List Char} {equals : Token} {steps : List Check}
    {fault : Fault} (h : FirstFailure source equals steps fault) (others : List Check) :
    FirstFailure source equals (steps ++ others) fault := by
  obtain ⟨before, check, after, ms, flaw, rfl, hfailure⟩ := h
  exact ⟨before, check, after ++ others, ms, flaw, List.append_assoc before _ others, hfailure⟩

/-! ## One step and all steps -/

section

variable (source : List Char) (equals : Token) {steps : List Check}

/-- One term. -/
theorem outcome_addTerm {ms : List Monomial} (hpass : Pass steps ms) (side : Side)
    (term : List Token) :
    Outcome source equals (steps ++ [.term side term])
      (addTerm source side (sums ms) term).outcome := by
  cases hread : readTerm side term with
  | error flaw =>
      rw [addTerm_of_error hread]
      exact ⟨steps, _, [], ms, flaw, rfl, hpass, .unreadable hread, rfl⟩
  | ok m =>
      have hsum : ((addMonomial (sums ms) m).find? m.power).getD 0 = sumAt m.power (ms ++ [m]) := by
        rw [← sums_append_singleton, getD_find?_sums]
      rw [addTerm_of_ok hread, hsum]
      by_cases hfinite : (sumAt m.power (ms ++ [m])).isFinite = true
      · rw [if_pos hfinite]
        exact ⟨ms ++ [m], .term hpass hread hfinite, (sums_append_singleton ms m).symm⟩
      · rw [if_neg hfinite]
        exact ⟨steps, _, [], ms, _, rfl, hpass, .tooLarge hread (Bool.eq_false_iff.mpr hfinite), rfl⟩

/-- The terms of a side, from left to right. -/
theorem outcome_addTerms {ms : List Monomial} (hpass : Pass steps ms) (side : Side)
    (terms : List (List Token)) :
    Outcome source equals (steps ++ terms.map (.term side))
      (addTerms source side (sums ms) terms).outcome := by
  induction terms generalizing steps ms with
  | nil =>
      rw [List.map_nil, List.append_nil]
      exact ⟨ms, hpass, rfl⟩
  | cons term terms ih =>
      have hfirst := outcome_addTerm source equals hpass side term
      rw [List.map_cons, List.append_cons, addTerms, Logged.outcome_bind]
      cases houtcome : (addTerm source side (sums ms) term).outcome with
      | error fault =>
          rw [houtcome] at hfirst
          exact hfirst.append_right _
      | ok result =>
          rw [houtcome] at hfirst
          obtain ⟨ms', hpass', rfl⟩ := hfirst
          exact ih hpass'

/-- A side. -/
theorem outcome_addSide {ms : List Monomial} (hpass : Pass steps ms) (side : Side)
    (tokens : List Token) :
    Outcome source equals (steps ++ sideChecks side tokens)
      (addSide source side (sums ms) equals tokens).outcome := by
  cases tokens with
  | nil => exact ⟨steps, _, _, ms, _, rfl, hpass, .emptySide side, rfl⟩
  | cons first rest =>
      have hside : Pass (steps ++ [.side side (first :: rest)]) ms :=
        hpass.side (List.cons_ne_nil first rest)
      rw [sideChecks, List.append_cons]
      exact outcome_addTerms source equals hside side (splitTerms (first :: rest))

end

/-- The sides of an equation are added one behind the other. -/
theorem outcome_reduce_equation (source : List Char) {l r : List Char} (hl : '=' ∉ l) (hr : '=' ∉ r) :
    (reduce source (tokensFrom 0 (l ++ '=' :: r))).outcome =
      ((addSide source .left .empty (equalsBehind l) (Side.left.tokens l r)).outcome.bind fun s =>
        (addSide source .right s (equalsBehind l) (Side.right.tokens l r)).outcome).map
        Polynomial.ofCoefficients := by
  have hfilter : (tokensFrom 0 (l ++ '=' :: r)).filter (fun t => t.kind == .equals) =
      [equalsBehind l] := by
    have hequals := equalsTokens_append 0 hl r
    rwa [equalsTokens_of_notMem _ hr, Nat.zero_add] at hequals
  have hleft : Kind.equals ∉ (Side.left.tokens l r).map Token.kind := by
    intro hmem
    obtain ⟨token, htoken, hkind⟩ := List.mem_map.mp hmem
    have hnone := equalsTokens_of_notMem 0 hl
    exact List.filter_eq_nil_iff.mp hnone token htoken (beq_iff_eq.mpr hkind)
  have hkind : (equalsBehind l).kind = .equals := rfl
  obtain ⟨htake, hdrop⟩ := cut_append_cons (r := Side.right.tokens l r) hkind hleft
  rw [outcome_reduce source hfilter, tokensFrom_equation, htake, hdrop, List.drop_one, List.tail_cons]

/-- The fault of an equation is that of its first step that fails. -/
theorem firstFailure_of_reduce {source l r : List Char} (hl : '=' ∉ l) (hr : '=' ∉ r) {fault : Fault}
    (h : (reduce source (tokensFrom 0 (l ++ '=' :: r))).outcome = .error fault) :
    FirstFailure source (equalsBehind l) (checks l r) fault := by
  have houtcome := outcome_addSide source (equalsBehind l) .nil .left (Side.left.tokens l r)
  rw [List.nil_append, show sums [] = .empty from rfl] at houtcome
  rw [outcome_reduce_equation source hl hr] at h
  cases hleft : (addSide source .left .empty (equalsBehind l) (Side.left.tokens l r)).outcome with
  | error found =>
      rw [hleft] at h houtcome
      cases h
      exact houtcome.append_right _
  | ok s =>
      rw [hleft] at h houtcome
      obtain ⟨ms, hpass, rfl⟩ := houtcome
      have hright := outcome_addSide source (equalsBehind l) hpass .right (Side.right.tokens l r)
      cases hlast : (addSide source .right (sums ms) (equalsBehind l) (Side.right.tokens l r)).outcome with
      | error found =>
          rw [hlast] at hright
          simp only [Except.bind, hlast] at h
          cases h
          exact hright
      | ok s' =>
          simp only [Except.bind, hlast] at h
          cases h

/-! ## The place of a fault -/

namespace Check

/-- What the fault of a step says and marks, in an equation with an `=` between `l` and `r`: for a side
without tokens, the `=` and no text; for a term, its characters, which all are characters of its side. -/
inductive Locates (l r : List Char) (flaw : Flaw) : Check → Fault → Prop
  | side (side : Side) (tokens : List Token) :
      Locates l r flaw (.side side tokens) (.term [] flaw ⟨byteLength l, byteLength l + 1⟩)
  | term {side : Side} {term : List Token} {before marked after : List Char} {span : Span}
      (htext : side.text l r = before ++ (marked ++ after)) (hne : marked ≠ [])
      (hspan : span = ⟨byteLength (side.front l ++ before),
        byteLength (side.front l ++ before) + byteLength marked⟩)
      (hlo : term.head?.map (·.span.lo) = some span.lo)
      (hhi : term.getLast?.map (·.span.hi) = some span.hi)
      (hbounds : span.lo < span.hi ∧ span.hi ≤ byteLength (l ++ '=' :: r))
      (hslice : span.slice (l ++ '=' :: r) = marked) :
      Locates l r flaw (.term side term) (.term marked flaw span)

end Check

/-- An equation is what stands in front of a side, the side, and what stands behind it. -/
theorem Side.exists_behind (l r : List Char) (side : Side) :
    ∃ behind, l ++ '=' :: r = side.front l ++ (side.text l r ++ behind) := by
  cases side with
  | left => exact ⟨'=' :: r, rfl⟩
  | right => exact ⟨[], by simp [Side.front, Side.text]⟩

/-- A term of a side is located there. -/
theorem Check.locates_term {l r : List Char} {side : Side} {term : List Token}
    (h : term ∈ splitTerms (side.tokens l r)) (equals : Token) (flaw : Flaw) :
    (Check.term side term).Locates l r flaw
      ((Check.term side term).fault (l ++ '=' :: r) equals flaw) := by
  obtain ⟨hne, before', after', htokens⟩ := exists_run_of_mem_splitTerms h
  have hlaid := laidOut_tokensFrom (byteLength (side.front l)) (side.text l r)
  rw [← Side.tokens, htokens] at hlaid
  obtain ⟨before, marked, after, hrun⟩ := hlaid.exists_occupies hne
  obtain ⟨behind, hbehind⟩ := side.exists_behind l r
  -- the whole equation around the characters of the term
  have hwhole : l ++ '=' :: r = side.front l ++ before ++ (marked ++ (after ++ behind)) := by
    rw [hbehind, hrun.text_eq]
    simp only [List.append_assoc]
  have hspan : spanOf term = ⟨byteLength (side.front l ++ before),
      byteLength (side.front l ++ before) + byteLength marked⟩ := by
    rw [hrun.span_eq, byteLength_append]
  have hslice : (spanOf term).slice (l ++ '=' :: r) = marked := by
    rw [hspan, hwhole, Span.slice_middle]
  have hpos : byteLength marked ≠ 0 := fun hzero =>
    hrun.ne_nil ((byteLength_eq_zero_iff marked).mp hzero)
  have hbounds : (spanOf term).lo < (spanOf term).hi ∧
      (spanOf term).hi ≤ byteLength (l ++ '=' :: r) := by
    rw [hspan, hwhole, byteLength_append _ (marked ++ _), byteLength_append marked]
    simp only
    omega
  rw [Check.fault, hslice]
  exact .term hrun.text_eq hrun.ne_nil hspan hrun.lo_eq hrun.hi_eq hbounds hslice

/-- The terms of either side carry its name. -/
theorem mem_splitTerms_of_mem_checks {l r : List Char} {side : Side} {term : List Token}
    (h : .term side term ∈ checks l r) : term ∈ splitTerms (side.tokens l r) := by
  rcases List.mem_append.mp h with hside | hside
  · rcases List.mem_cons.mp hside with hfirst | hterm
    · cases hfirst
    · obtain ⟨found, hfound, heq⟩ := List.mem_map.mp hterm
      cases heq
      exact hfound
  · rcases List.mem_cons.mp hside with hfirst | hterm
    · cases hfirst
    · obtain ⟨found, hfound, heq⟩ := List.mem_map.mp hterm
      cases heq
      exact hfound

theorem locates_of_mem_checks {l r : List Char} {check : Check} (h : check ∈ checks l r)
    (flaw : Flaw) :
    check.Locates l r flaw (check.fault (l ++ '=' :: r) (equalsBehind l) flaw) := by
  cases check with
  | side side tokens => exact .side side tokens
  | term side term => exact Check.locates_term (mem_splitTerms_of_mem_checks h) _ flaw

/-- **A fault is about the first step that fails.** A text with one `=` that is no equation fails in a
step behind steps that pass. The fault says why, and marks the `=` for a side without a token and else
the term from its first token to its last, and its diagnostic has the same span and reason. -/
theorem parse_first_fault {source : String} {l r : List Char} {fault : Fault}
    (htext : source.toList = l ++ '=' :: r) (hl : '=' ∉ l) (hr : '=' ∉ r)
    (hfault : parse source = .error fault) :
    scan source = Side.left.tokens l r ++ equalsBehind l :: Side.right.tokens l r ++
        [⟨.finish, ⟨byteLength source.toList, byteLength source.toList⟩⟩] ∧
      ∃ before check after ms flaw, checks l r = before ++ check :: after ∧ Pass before ms ∧
        check.Fails ms flaw ∧ check.Locates l r flaw fault ∧
          fault.diagnostic.span = fault.span ∧ fault.diagnostic.label = flaw.reason := by
  constructor
  · rw [scan, scanFrom_eq_tokensFrom, Nat.zero_add, ← tokensFrom_equation, ← htext]
  · rw [parse_eq_reduce, htext] at hfault
    obtain ⟨before, check, after, ms, flaw, hchecks, hpass, hfails, rfl⟩ :=
      firstFailure_of_reduce hl hr hfault
    have hcheck : check ∈ checks l r := by simp [hchecks]
    refine ⟨before, check, after, ms, flaw, hchecks, hpass, hfails, ?_, ?_, ?_⟩
    · exact locates_of_mem_checks hcheck flaw
    · cases check <;> rfl
    · cases check <;> rfl

/-- The second term of the left side has a character of three bytes that no equation contains, and the
empty right side is not looked at. -/
theorem parse_first_fault_stray_character :
    "x + 2 € =".toList = "x + 2 € ".toList ++ '=' :: "".toList ∧ '=' ∉ "x + 2 € ".toList ∧
      '=' ∉ "".toList ∧
      parse "x + 2 € =" = .error (.term "+ 2 €".toList (.strayCharacter '€') ⟨2, 9⟩) ∧
      ∃ before check after ms flaw,
        checks "x + 2 € ".toList "".toList = before ++ check :: after ∧ Pass before ms ∧
          check.Fails ms flaw ∧
            check.Locates "x + 2 € ".toList "".toList flaw
              (.term "+ 2 €".toList (.strayCharacter '€') ⟨2, 9⟩) ∧
              (Fault.term "+ 2 €".toList (.strayCharacter '€') ⟨2, 9⟩).diagnostic.span = ⟨2, 9⟩ ∧
                (Fault.term "+ 2 €".toList (.strayCharacter '€') ⟨2, 9⟩).diagnostic.label =
                  flaw.reason := by
  have htext : "x + 2 € =".toList = "x + 2 € ".toList ++ '=' :: "".toList := by decide +kernel
  have hl : '=' ∉ "x + 2 € ".toList := by decide +kernel
  have hr : '=' ∉ "".toList := by decide +kernel
  have hfault : parse "x + 2 € =" =
      .error (.term "+ 2 €".toList (.strayCharacter '€') ⟨2, 9⟩) := by
    decide +kernel
  exact ⟨htext, hl, hr, hfault, (parse_first_fault htext hl hr hfault).2⟩

end Quadra.Equation
