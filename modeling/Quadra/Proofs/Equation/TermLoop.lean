import Quadra.Proofs.Equation.FirstFault

set_option autoImplicit false

/-!
# The loop over a side

The terms of a side are found by position: a term reaches from where it starts up to the next sign behind
its first token, or to the end of the side, and the next term starts there. So every step moves on, and
hands over the tokens that it moves over. What is handed over are the first terms of `splitTerms`, and all
of them when no term fails. A sign stands nowhere but in front of a term, so that no body has one, and no
fault complains of one: `side_handed_over`.
-/

namespace Quadra.Equation

open Text

/-! ## Positions -/

/-- Where the term that starts at a position of a side ends: at the next sign behind its first token, or at
the end of the side. -/
def termEnd (tokens : List Token) (start : Nat) : Nat :=
  match (tokens.drop (start + 1)).findIdx? fun token => token.kind.isSign with
  | some i => start + 1 + i
  | none => tokens.length

/-- The tokens of the term that starts at a position of a side. -/
def termAt (tokens : List Token) (start : Nat) : List Token :=
  tokens.extract start (termEnd tokens start)

section

variable (front : List Token) (first : Token) {inner rest : List Token}
  (hinner : ∀ t ∈ inner, t.kind.isSign = false) (hrest : ∀ t ∈ rest.head?, t.kind.isSign = true)

include hinner hrest

theorem termEnd_append :
    termEnd (front ++ first :: (inner ++ rest)) front.length = (front ++ first :: inner).length := by
  have hdrop : (front ++ first :: (inner ++ rest)).drop (front.length + 1) = inner ++ rest := by
    simp [List.drop_append]
  have hnone : inner.findIdx? (fun token => token.kind.isSign) = none := by
    rw [List.findIdx?_eq_none_iff]
    exact hinner
  rw [termEnd, hdrop, List.findIdx?_append, hnone, Option.none_or]
  cases rest with
  | nil => simp
  | cons sign others =>
      have hsign : sign.kind.isSign = true := hrest sign rfl
      simp only [List.findIdx?_cons, hsign, if_true, Option.map_some, List.length_append, List.length_cons]
      omega

theorem termAt_append : termAt (front ++ first :: (inner ++ rest)) front.length = first :: inner := by
  rw [termAt, termEnd_append front first hinner hrest, List.extract_eq_take_drop, List.drop_left]
  simp

end

/-- Every position of a side is the start of a piece. -/
theorem exists_piece_at {tokens : List Token} {start : Nat} (hstart : start < tokens.length) :
    ∃ front first inner rest, tokens = front ++ first :: (inner ++ rest) ∧ front.length = start ∧
      (∀ t ∈ inner, t.kind.isSign = false) ∧ ∀ t ∈ rest.head?, t.kind.isSign = true := by
  obtain ⟨inner, rest, hbehind, hinner, hrest⟩ :=
    exists_piece (fun t : Token => t.kind.isSign) (tokens.drop (start + 1))
  refine ⟨tokens.take start, tokens[start], inner, rest, ?_, ?_, hinner, hrest⟩
  · rw [← hbehind, List.cons_getElem_drop_succ, List.take_append_drop]
  · rw [List.length_take]
    omega

/-- A term has a token, and ends within the side. -/
theorem termEnd_bounds {tokens : List Token} {start : Nat} (hstart : start < tokens.length) :
    start < termEnd tokens start ∧ termEnd tokens start ≤ tokens.length := by
  obtain ⟨front, first, inner, rest, rfl, rfl, hinner, hrest⟩ := exists_piece_at hstart
  rw [termEnd_append front first hinner hrest]
  simp only [List.length_append, List.length_cons]
  omega

/-! ## The loop -/

/-- The loop over a side, from a position and with these sums: while there is a token, the term that starts
there is added, and the loop ends with its fault or goes on where the term ends. These are the terms that it
hands over and the result that it ends with. -/
inductive Loop (source : List Char) (side : Side) (tokens : List Token) :
    Nat → Sums → List (List Token) → Logged Fault Sums → Prop
  | done {start : Nat} {sums : Sums} (hend : tokens.length ≤ start) :
      Loop source side tokens start sums [] (pure sums)
  | fail {start : Nat} {sums : Sums} {fault : Fault} (hstart : start < tokens.length)
      (hterm : (addTerm source side sums (termAt tokens start)).outcome = .error fault) :
      Loop source side tokens start sums [termAt tokens start]
        (addTerm source side sums (termAt tokens start))
  | next {start : Nat} {sums added : Sums} {handed : List (List Token)} {result : Logged Fault Sums}
      (hstart : start < tokens.length)
      (hterm : (addTerm source side sums (termAt tokens start)).outcome = .ok added)
      (hrest : Loop source side tokens (termEnd tokens start) added handed result) :
      Loop source side tokens start sums (termAt tokens start :: handed)
        (addTerm source side sums (termAt tokens start) >>= fun _ => result)

section

variable {source : List Char} {side : Side} {tokens : List Token} {start : Nat} {sums : Sums}
  {handed handed' : List (List Token)} {result result' : Logged Fault Sums}

/-- The loop does one thing only. -/
theorem Loop.unique (h : Loop source side tokens start sums handed result)
    (h' : Loop source side tokens start sums handed' result') : handed' = handed ∧ result' = result := by
  induction h generalizing handed' result' with
  | done hend =>
      cases h' with
      | done => exact ⟨rfl, rfl⟩
      | fail hstart => omega
      | next hstart => omega
  | fail hstart hterm =>
      cases h' with
      | done hend => omega
      | fail => exact ⟨rfl, rfl⟩
      | next _ hterm' =>
          rw [hterm] at hterm'
          cases hterm'
  | next hstart hterm hrest ih =>
      cases h' with
      | done hend => omega
      | fail _ hterm' =>
          rw [hterm] at hterm'
          cases hterm'
      | next _ hterm' hrest' =>
          rw [hterm] at hterm'
          cases hterm'
          obtain ⟨rfl, rfl⟩ := ih hrest'
          exact ⟨rfl, rfl⟩

/-- Every step moves on by a token at least. -/
theorem Loop.length_le (h : Loop source side tokens start sums handed result)
    (hstart : start ≤ tokens.length) : start + handed.length ≤ tokens.length := by
  induction h with
  | done => simpa using hstart
  | fail hlt =>
      rw [List.length_singleton]
      omega
  | next hlt hterm hrest ih =>
      have hbounds := termEnd_bounds hlt
      have hlength := ih hbounds.2
      rw [List.length_cons]
      omega

end

/-- The loop adds the terms of the side one after the other, up to the first that fails. -/
theorem exists_loop_append (source : List Char) (side : Side) (front back : List Token) (sums : Sums) :
    ∃ handed, Loop source side (front ++ back) front.length sums handed
        (addTerms source side sums (splitTerms back)) ∧ handed <+: splitTerms back ∧
      ∀ s, (addTerms source side sums (splitTerms back)).outcome = .ok s → handed = splitTerms back := by
  -- the tokens that the loop has passed become the front of the next step
  induction back using pieces_induction (fun t : Token => t.kind.isSign) generalizing front sums with
  | nil => exact ⟨[], .done (by simp), List.nil_prefix, fun _ _ => rfl⟩
  | piece first inner rest hinner hrest ih =>
      have hstart : front.length < (front ++ first :: (inner ++ rest)).length := by simp
      have hterm := termAt_append front first hinner hrest
      rw [splitTerms_cons_append first hinner hrest, addTerms]
      cases houtcome : (addTerm source side sums (first :: inner)).outcome with
      | error fault =>
          have hself : (addTerm source side sums (first :: inner) >>= fun s =>
              addTerms source side s (splitTerms rest)) = addTerm source side sums (first :: inner) := by
            rw [Logged.bind_error houtcome, ← houtcome]
          have hloop : Loop source side (front ++ first :: (inner ++ rest)) front.length sums
              [termAt _ front.length] (addTerm source side sums (termAt _ front.length)) :=
            .fail hstart (hterm ▸ houtcome)
          rw [hterm] at hloop
          rw [hself]
          refine ⟨[first :: inner], hloop, List.prefix_append [_] _, ?_⟩
          intro s hs
          rw [houtcome] at hs
          cases hs
      | ok added =>
          obtain ⟨handed, hrun, hfirst, hall⟩ := ih (front ++ first :: inner) added
          rw [List.append_assoc, List.cons_append, ← termEnd_append front first hinner hrest] at hrun
          have hloop := Loop.next hstart (hterm ▸ houtcome) hrun
          have hbind : (addTerm source side sums (first :: inner) >>= fun s =>
              addTerms source side s (splitTerms rest)) =
              (addTerm source side sums (first :: inner) >>= fun _ =>
                addTerms source side added (splitTerms rest)) := by
            rw [Logged.bind_ok houtcome, Logged.bind_ok houtcome]
          rw [hterm, ← hbind] at hloop
          refine ⟨(first :: inner) :: handed, hloop, List.cons_prefix_cons.mpr ⟨rfl, hfirst⟩, ?_⟩
          intro s hs
          rw [Logged.bind_ok houtcome] at hs
          rw [hall s hs]

/-! ## Slices of a side -/

/-- These are slices of a side, one behind the other from its first token on: none is empty, a sign starts
each but the first, and no other sign stands in one. -/
structure Slices (tokens : List Token) (terms : List (List Token)) : Prop where
  consecutive : terms.flatten <+: tokens
  ne_nil : ∀ term ∈ terms, term ≠ []
  starts : ∀ term ∈ terms.tail, ∃ first rest, term = first :: rest ∧ first.kind.isSign = true
  inner : ∀ term ∈ terms, ∀ token ∈ term.tail, token.kind.isSign = false

/-- Behind a sign, all terms start with one. -/
theorem exists_sign_of_mem_splitTerms {tokens : List Token}
    (hhead : ∀ t ∈ tokens.head?, t.kind.isSign = true) :
    ∀ term ∈ splitTerms tokens, ∃ first rest, term = first :: rest ∧ first.kind.isSign = true := by
  induction tokens using pieces_induction (fun t : Token => t.kind.isSign) with
  | nil => exact fun _ h => absurd h List.not_mem_nil
  | piece first inner rest hinner hrest ih =>
      rw [splitTerms_cons_append first hinner hrest]
      intro term hterm
      rcases List.mem_cons.mp hterm with rfl | hterm
      · exact ⟨first, inner, rfl, hhead first rfl⟩
      · exact ih hrest term hterm

theorem isSign_eq_false_of_mem_splitTerms (tokens : List Token) :
    ∀ term ∈ splitTerms tokens, ∀ token ∈ term.tail, token.kind.isSign = false := by
  induction tokens using pieces_induction (fun t : Token => t.kind.isSign) with
  | nil => exact fun _ h => absurd h List.not_mem_nil
  | piece first inner rest hinner hrest ih =>
      rw [splitTerms_cons_append first hinner hrest]
      exact List.forall_mem_cons.mpr ⟨hinner, ih⟩

theorem flatten_splitTerms (tokens : List Token) : (splitTerms tokens).flatten = tokens :=
  List.flatten_splitBy _ _

/-- The terms of a side are slices of it. -/
theorem slices_splitTerms (tokens : List Token) : Slices tokens (splitTerms tokens) where
  consecutive := by rw [flatten_splitTerms]
  ne_nil := fun _ h => List.ne_nil_of_mem_splitBy h
  starts := by
    cases tokens with
    | nil => exact fun _ h => absurd h List.not_mem_nil
    | cons first tokens =>
        obtain ⟨inner, rest, rfl, hinner, hrest⟩ := exists_piece (fun t : Token => t.kind.isSign) tokens
        rw [splitTerms_cons_append first hinner hrest]
        exact exists_sign_of_mem_splitTerms hrest
  inner := isSign_eq_false_of_mem_splitTerms tokens

/-- So are the first of them. -/
theorem Slices.of_append {tokens : List Token} {terms others : List (List Token)}
    (h : Slices tokens (terms ++ others)) : Slices tokens terms where
  consecutive := by
    refine List.IsPrefix.trans ?_ h.consecutive
    rw [List.flatten_append]
    exact List.prefix_append _ _
  ne_nil := fun term hterm => h.ne_nil term (List.mem_append_left _ hterm)
  starts := by
    cases terms with
    | nil => exact fun _ h => absurd h List.not_mem_nil
    | cons first terms => exact fun term hterm => h.starts term (List.mem_append_left _ hterm)
  inner := fun term hterm => h.inner term (List.mem_append_left _ hterm)

/-! ## Bodies -/

/-- The tokens that stand around the bodies of terms: signs, the `=`, and the end of the text. -/
def Kind.isOuter : Kind → Bool
  | .plus => true
  | .minus => true
  | .equals => true
  | .finish => true
  | _ => false

/-- Tokens of one side: no `=` and no end of the text is among them. -/
def AreOfSide (tokens : List Token) : Prop :=
  ∀ token ∈ tokens, token.kind ≠ .equals ∧ token.kind ≠ .finish

theorem isOuter_iff (kind : Kind) :
    kind.isOuter = true ↔ kind.isSign = true ∨ kind = .equals ∨ kind = .finish := by
  cases kind <;> simp [Kind.isOuter, Kind.isSign]

/-- A sign that starts a term is no part of its body. -/
theorem isSign_eq_false_of_mem_bodyOf {term : List Token}
    (hinner : ∀ token ∈ term.tail, token.kind.isSign = false) :
    ∀ kind ∈ bodyOf term, kind.isSign = false := by
  intro kind hkind
  cases term with
  | nil => cases hkind
  | cons first inner =>
      by_cases hsign : first.kind.isSign = true
      · rw [bodyOf_of_isSign hsign] at hkind
        obtain ⟨token, htoken, rfl⟩ := List.mem_map.mp hkind
        exact hinner token htoken
      · have hsign := Bool.eq_false_iff.mpr hsign
        rw [bodyOf_of_isSign_eq_false hsign] at hkind
        obtain ⟨token, htoken, rfl⟩ := List.mem_map.mp hkind
        rcases List.mem_cons.mp htoken with rfl | htoken
        · exact hsign
        · exact hinner token htoken

theorem exists_token_of_mem_bodyOf {tokens term : List Token} (hterm : term ∈ splitTerms tokens)
    {kind : Kind} (hkind : kind ∈ bodyOf term) : ∃ token ∈ tokens, token.kind = kind := by
  obtain ⟨token, htoken, rfl⟩ := List.mem_map.mp (bodyOf_subset term hkind)
  refine ⟨token, ?_, rfl⟩
  rw [← flatten_splitTerms tokens]
  exact List.mem_flatten_of_mem hterm htoken

/-- Bodies are between what stands around them. -/
theorem isOuter_eq_false_of_mem_bodyOf {tokens : List Token} (hside : AreOfSide tokens)
    {term : List Token} (hterm : term ∈ splitTerms tokens) :
    ∀ kind ∈ bodyOf term, kind.isOuter = false := by
  intro kind hkind
  have hsign := isSign_eq_false_of_mem_bodyOf (isSign_eq_false_of_mem_splitTerms tokens term hterm) kind hkind
  obtain ⟨token, htoken, rfl⟩ := exists_token_of_mem_bodyOf hterm hkind
  obtain ⟨hequals, hfinish⟩ := hside token htoken
  rw [Bool.eq_false_iff, ne_eq, isOuter_iff]
  simp [hsign, hequals, hfinish]

/-- The tokens of the sides of an equation are of one side. -/
theorem areOfSide_tokens {l r : List Char} (hl : '=' ∉ l) (hr : '=' ∉ r) (side : Side) :
    AreOfSide (side.tokens l r) := by
  have htext : '=' ∉ side.text l r := by
    cases side
    · exact hl
    · exact hr
  intro token htoken
  obtain ⟨before, marked, after, hplace, -, hlexeme, -⟩ := standsIn_tokensFrom _ _ token htoken
  constructor
  · intro hkind
    rw [hkind] at hlexeme
    cases hlexeme
    exact htext (by rw [hplace]; simp)
  · intro hkind
    rw [hkind] at hlexeme
    cases hlexeme

/-! ## Complaints -/

/-- A flaw of a body complains of no token that cannot stand there. -/
theorem FlawIn.ne_unexpected {body : List Kind} (hbody : ∀ kind ∈ body, kind.isOuter = false) {flaw : Flaw}
    (h : FlawIn body flaw) {kind : Kind} (hkind : kind.isOuter = true) : flaw ≠ .unexpected kind := by
  rintro rfl
  cases h with
  | unexpected hmem =>
      rw [hbody kind hmem] at hkind
      cases hkind

/-- What messages show for a sign, an `=` or the end. -/
theorem head?_text_of_isOuter {outer : Kind} (h : outer.isOuter = true) :
    ∃ c ∈ ['+', '-', '=', 'e'], outer.text.toList.head? = some c := by
  cases outer with
  | plus => exact ⟨'+', by simp, by simp [Kind.text]⟩
  | minus => exact ⟨'-', by simp, by simp [Kind.text]⟩
  | equals => exact ⟨'=', by simp, by simp [Kind.text]⟩
  | finish => exact ⟨'e', by simp, by simp [Kind.text]⟩
  | _ => cases h

/-- No other token that is spelled in a text is shown in the same way. -/
theorem isOuter_of_text_eq {marked : List Char} {kind outer : Kind} (hlexeme : IsLexeme marked kind)
    (houter : outer.isOuter = true) (htext : kind.text = outer.text) : kind.isOuter = true := by
  obtain ⟨c, hc, hhead⟩ := head?_text_of_isOuter houter
  rw [← htext] at hhead
  cases hlexeme with
  | plus => rfl
  | minus => rfl
  | equals => rfl
  | number hnumber =>
      -- a number is shown as it is spelled, from a digit or a point on
      obtain ⟨d, rest, rfl, hd⟩ := hnumber.exists_cons
      obtain rfl : d = c := by simpa [Kind.text] using hhead
      have hnone : ['+', '-', '=', 'e'].all (!isNumberChar ·) = true := rfl
      have hother := List.all_eq_true.mp hnone d hc
      rw [hd] at hother
      cases hother
  | _ =>
      simp [Kind.text] at hhead
      subst hhead
      simp at hc

theorem reason_unexpected (kind : Kind) :
    (Flaw.unexpected kind).reason = "unexpected `" ++ kind.text ++ "`" := rfl

/-- No other reason begins like that of a token that is out of place. -/
theorem reason_ne_unexpected {flaw : Flaw} (hflaw : ∀ kind, flaw ≠ .unexpected kind) (t : String) :
    flaw.reason ≠ "unexpected `" ++ t ++ "`" := by
  cases flaw with
  | emptySide side =>
      show "the " ++ side.name ++ " side of the equation is empty" ≠ _
      simp [String.ext_iff]
  | strayCharacter c =>
      show "unexpected character `" ++ .ofList [c] ++ "`" ≠ _
      simp [String.ext_iff]
  | notFinite text =>
      show "`" ++ .ofList text ++ "` is not a finite number" ≠ _
      simp [String.ext_iff]
  | notNumber text =>
      show "`" ++ .ofList text ++ "` is not a number" ≠ _
      simp [String.ext_iff]
  | expectedPower =>
      show "expected a non-negative integer power after `^`" ≠ _
      simp [String.ext_iff]
  | expectedVariable =>
      show "expected `X` after `*`" ≠ _
      simp [String.ext_iff]
  | expectedContent =>
      show "expected a coefficient or `X`" ≠ _
      simp [String.ext_iff]
  | unexpected kind => exact absurd rfl (hflaw kind)
  | tooLarge n =>
      show "the coefficient of X^" ++ toString n.val ++ " is too large" ≠ _
      simp [String.ext_iff]

/-- The flaw does not complain of a sign, an `=` or the end, and its reason does not say so either. -/
def Spares (flaw : Flaw) : Prop :=
  ∀ outer : Kind, outer.isOuter = true →
    flaw ≠ .unexpected outer ∧ flaw.reason ≠ (Flaw.unexpected outer).reason

theorem spares_of_ne {flaw : Flaw} (hflaw : ∀ kind, flaw ≠ .unexpected kind) : Spares flaw :=
  fun outer _ => ⟨hflaw outer, reason_ne_unexpected hflaw outer.text⟩

/-- A flaw of a body that is spelled in a text spares what stands around it. -/
theorem FlawIn.spares {body : List Kind} (hbody : ∀ kind ∈ body, kind.isOuter = false)
    (hspelled : ∀ kind ∈ body, ∃ marked, IsLexeme marked kind) {flaw : Flaw} (h : FlawIn body flaw) :
    Spares flaw := by
  by_cases hother : ∀ kind, flaw ≠ .unexpected kind
  · exact spares_of_ne hother
  · obtain ⟨kind, hkind⟩ := not_forall.mp hother
    obtain rfl := not_not.mp hkind
    cases h with
    | unexpected hmem =>
        intro outer houter
        have hinner := hbody kind hmem
        obtain ⟨marked, hlexeme⟩ := hspelled kind hmem
        refine ⟨?_, ?_⟩
        · intro heq
          cases heq
          rw [houter] at hinner
          cases hinner
        · intro hreason
          rw [reason_unexpected, reason_unexpected] at hreason
          rw [isOuter_of_text_eq hlexeme houter (by simpa using hreason)] at hinner
          cases hinner

/-- A term of an equation that cannot be read has a flaw of its body, and every token of the body is spelled
in the text. -/
theorem spares_of_readTerm {l r : List Char} (hl : '=' ∉ l) (hr : '=' ∉ r) {side : Side}
    {term : List Token} (hterm : term ∈ splitTerms (side.tokens l r)) {flaw : Flaw}
    (hread : readTerm side term = .error flaw) : Spares flaw := by
  refine (flawIn_bodyOf_of_readTerm hread).spares
    (isOuter_eq_false_of_mem_bodyOf (areOfSide_tokens hl hr side) hterm) ?_
  intro kind hkind
  obtain ⟨token, htoken, rfl⟩ := exists_token_of_mem_bodyOf hterm hkind
  obtain ⟨before, marked, after, -, -, hlexeme, -⟩ := standsIn_tokensFrom _ _ token htoken
  exact ⟨marked, hlexeme⟩

/-- So does an equation: the other flaws are an empty side and a sum that is too large. -/
theorem spares_of_parse {source : String} {text : List Char} {flaw : Flaw} {span : Span}
    (h : parse source = .error (.term text flaw span)) : Spares flaw := by
  rcases equals_cases source.toList with hnone | ⟨l, r, htext, hl, hr⟩ | ⟨a, b, c, htext, ha, hb⟩
  · rw [parse_of_missing hnone] at h
    cases h
  · rw [parse_eq_reduce, htext] at h
    obtain ⟨before, check, after, ms, found, hchecks, -, hfails, hfault⟩ := firstFailure_of_reduce hl hr h
    have hmem : check ∈ checks l r := by simp [hchecks]
    cases hfails with
    | emptySide side =>
        cases hfault
        exact spares_of_ne fun _ => nofun
    | unreadable hread =>
        cases hfault
        exact spares_of_readTerm hl hr (mem_splitTerms_of_mem_checks hmem) hread
    | tooLarge =>
        cases hfault
        exact spares_of_ne fun _ => nofun
  · rw [parse_of_second htext ha hb] at h
    cases h

/-- A fault of the loop complains of none of what stands around the bodies of a side. -/
theorem ne_unexpected_of_addTerms {source : List Char} {side : Side} {sums : Sums} {tokens : List Token}
    (hside : AreOfSide tokens) {text : List Char} {flaw : Flaw} {span : Span}
    (h : (addTerms source side sums (splitTerms tokens)).outcome = .error (.term text flaw span))
    {outer : Kind} (houter : outer.isOuter = true) : flaw ≠ .unexpected outer := by
  obtain ⟨term, hterm, found, hcause, hfault⟩ := exists_term_of_addTerms h
  cases hfault
  rcases hcause with hread | ⟨n, rfl⟩
  · exact (flawIn_bodyOf_of_readTerm hread).ne_unexpected (isOuter_eq_false_of_mem_bodyOf hside hterm) houter
  · exact nofun

/-! ## Sides of equations -/

/-- What the loop does with the tokens of a side: it ends in one way, after at most as many steps as there
are tokens, and with what the side is added as. The terms that it hands over are slices of the side, and all
of the side when none fails. -/
structure HandsOver (source : List Char) (side : Side) (sums : Sums) (tokens : List Token)
    (handed : List (List Token)) (result : Logged Fault Sums) : Prop where
  ends : ∀ handed' result', Loop source side tokens 0 sums handed' result' ↔
    handed' = handed ∧ result' = result
  steps : handed.length ≤ tokens.length
  added : tokens ≠ [] → ∀ equals, addSide source side sums equals tokens = result
  slices : Slices tokens handed
  whole : ∀ s, result.outcome = .ok s → handed.flatten = tokens
  bodies : AreOfSide tokens → ∀ term ∈ handed, ∀ kind ∈ bodyOf term, kind.isOuter = false
  complaints : AreOfSide tokens → ∀ text flaw span, result.outcome = .error (.term text flaw span) →
    ∀ outer : Kind, outer.isOuter = true → flaw ≠ .unexpected outer

/-- The loop hands over the terms of the side. -/
theorem exists_handsOver (source : List Char) (side : Side) (sums : Sums) (tokens : List Token) :
    ∃ handed, HandsOver source side sums tokens handed (addTerms source side sums (splitTerms tokens)) := by
  obtain ⟨handed, hloop, ⟨others, hterms⟩, hall⟩ := exists_loop_append source side [] tokens sums
  have hloop : Loop source side tokens 0 sums handed (addTerms source side sums (splitTerms tokens)) := hloop
  have hsplit := slices_splitTerms tokens
  rw [← hterms] at hsplit
  refine ⟨handed, ?_, ?_, ?_, hsplit.of_append, ?_, ?_, ?_⟩
  · intro handed' result'
    constructor
    · exact hloop.unique
    · rintro ⟨rfl, rfl⟩
      exact hloop
  · have hlength := hloop.length_le (Nat.zero_le _)
    omega
  · intro hne equals
    rw [addSide, if_neg (by simpa using hne)]
  · intro s hs
    rw [hall s hs, flatten_splitTerms]
  · intro hside term hterm
    exact isOuter_eq_false_of_mem_bodyOf hside (hterms ▸ List.mem_append_left others hterm)
  · intro hside text flaw span h outer houter
    exact ne_unexpected_of_addTerms hside h houter

/-- **A side is handed over term by term.** The loop over any list of tokens ends, and hands over slices
that are the whole list when no term fails. The loops of an equation go over the tokens of its sides, so that
no body has a sign, an `=` or the end of the text, and no fault of a text complains of one of these. -/
theorem side_handed_over :
    (∀ source side sums tokens, ∃ handed result, HandsOver source side sums tokens handed result) ∧
    (∀ (source : String) (l r : List Char), source.toList = l ++ '=' :: r → '=' ∉ l → '=' ∉ r →
      (∀ side : Side, AreOfSide (side.tokens l r)) ∧
        parse source =
          ((addSide source.toList .left .empty (equalsBehind l) (Side.left.tokens l r)).outcome.bind fun s =>
            (addSide source.toList .right s (equalsBehind l) (Side.right.tokens l r)).outcome).map
            Polynomial.ofCoefficients) ∧
    ∀ source text flaw span, parse source = .error (.term text flaw span) → Spares flaw := by
  refine ⟨?_, ?_, fun _ _ _ _ => spares_of_parse⟩
  · intro source side sums tokens
    obtain ⟨handed, h⟩ := exists_handsOver source side sums tokens
    exact ⟨handed, _, h⟩
  · intro source l r htext hl hr
    refine ⟨areOfSide_tokens hl hr, ?_⟩
    rw [parse_eq_reduce, ← outcome_reduce_equation source.toList hl hr, htext]

/-- The first term of the left side has a number behind its variable, and the fault is about this number,
not about the sign behind it. -/
theorem side_handed_over_number :
    "x 2 - 1 = 3".toList = "x 2 - 1 ".toList ++ '=' :: " 3".toList ∧ '=' ∉ "x 2 - 1 ".toList ∧
      '=' ∉ " 3".toList ∧ AreOfSide (Side.left.tokens "x 2 - 1 ".toList " 3".toList) ∧
      parse "x 2 - 1 = 3" = .error (.term "x 2".toList (.unexpected (.number ['2'])) ⟨0, 3⟩) ∧
      Spares (.unexpected (.number ['2'])) := by
  have htext : "x 2 - 1 = 3".toList = "x 2 - 1 ".toList ++ '=' :: " 3".toList := by decide +kernel
  have hl : '=' ∉ "x 2 - 1 ".toList := by decide +kernel
  have hr : '=' ∉ " 3".toList := by decide +kernel
  have hfault : parse "x 2 - 1 = 3" =
      .error (.term "x 2".toList (.unexpected (.number ['2'])) ⟨0, 3⟩) := by
    decide +kernel
  exact ⟨htext, hl, hr, (side_handed_over.2.1 _ _ _ htext hl hr).1 .left, hfault,
    side_handed_over.2.2 _ _ _ _ hfault⟩

end Quadra.Equation
