import Quadra.Diagnostic.Basic
import Quadra.Proofs.Equation.Accounts
import Quadra.Proofs.Equation.Reading
import Quadra.Proofs.Equation.Spans

set_option autoImplicit false

/-!
# What a fault is about

The fault of a text is about the whole text, an `=`, or a run of tokens with a flaw, so its span always
covers a part of the text: `exists_covers_of_parse`. A flaw quotes nothing but tokens.
-/

namespace Quadra.Equation

open Text

/-! ## Flaws -/

/-- The flaw of a term that cannot be read. It quotes nothing but these tokens. -/
inductive FlawIn (kinds : List Kind) : Flaw → Prop
  | strayCharacter {c : Char} (h : .invalid c ∈ kinds) : FlawIn kinds (.strayCharacter c)
  | notFinite {text : List Char} (h : .number text ∈ kinds) : FlawIn kinds (.notFinite text)
  | notNumber {text : List Char} (h : .number text ∈ kinds) : FlawIn kinds (.notNumber text)
  | expectedPower : FlawIn kinds .expectedPower
  | expectedVariable : FlawIn kinds .expectedVariable
  | expectedContent : FlawIn kinds .expectedContent
  | unexpected {kind : Kind} (h : kind ∈ kinds) : FlawIn kinds (.unexpected kind)

theorem FlawIn.mono {kinds kinds' : List Kind} (hsubset : kinds ⊆ kinds') {flaw : Flaw}
    (h : FlawIn kinds flaw) : FlawIn kinds' flaw := by
  cases h with
  | strayCharacter h => exact .strayCharacter (hsubset h)
  | notFinite h => exact .notFinite (hsubset h)
  | notNumber h => exact .notNumber (hsubset h)
  | expectedPower => exact .expectedPower
  | expectedVariable => exact .expectedVariable
  | expectedContent => exact .expectedContent
  | unexpected h => exact .unexpected (hsubset h)

theorem flawIn_of_readCoefficient {kinds : List Kind} {flaw : Flaw}
    (h : readCoefficient kinds = .error flaw) : FlawIn kinds flaw := by
  unfold readCoefficient at h
  split at h
  · split at h
    · split at h
      · cases h
      · cases h
        exact .notFinite List.mem_cons_self
    · cases h
      exact .notNumber List.mem_cons_self
  · cases h

theorem flawIn_of_readExponent {kinds : List Kind} {flaw : Flaw}
    (h : readExponent kinds = .error flaw) (kinds' : List Kind) : FlawIn kinds' flaw := by
  unfold readExponent at h
  split at h
  · split at h
    · cases h
    · cases h
      exact .expectedPower
  · cases h
    exact .expectedPower

theorem flawIn_of_readVariable {hasCoefficient hasTimes : Bool} {kinds : List Kind} {flaw : Flaw}
    (h : readVariable hasCoefficient hasTimes kinds = .error flaw) : FlawIn kinds flaw := by
  unfold readVariable at h
  split at h
  · exact flawIn_of_readExponent h _
  · cases h
  · split_ifs at h
    · cases h
      exact .expectedVariable
    · split at h
      · cases h
        exact .unexpected List.mem_cons_self
      · cases h
        exact .expectedContent

/-- The tokens behind the parts of a body are tokens of the body. -/
theorem subset_of_readCoefficient {kinds rest : List Kind} {c : Option Binary64}
    (h : readCoefficient kinds = .ok (c, rest)) : rest ⊆ kinds := by
  rcases readCoefficient_eq_ok h with ⟨text, rfl, -⟩ | ⟨-, rfl⟩
  · exact List.subset_cons_self _ _
  · exact List.Subset.refl _

theorem readTimes_subset (kinds : List Kind) : (readTimes kinds).2 ⊆ kinds := by
  conv => rhs; rw [readTimes_eq kinds]
  exact List.subset_append_right _ _

theorem subset_of_readVariable {hasCoefficient hasTimes : Bool} {kinds rest : List Kind} {n : Power}
    (h : readVariable hasCoefficient hasTimes kinds = .ok (n, rest)) : rest ⊆ kinds := by
  rcases readVariable_eq_ok h with ⟨v, -, rfl⟩ | ⟨-, -, -, rfl⟩
  · exact List.subset_append_right _ _
  · exact List.Subset.refl _

/-- The flaw of a body quotes nothing but tokens of the body. -/
theorem flawIn_of_read {body : List Kind} {flaw : Flaw} (h : Monomial.read body = .error flaw) :
    FlawIn body flaw := by
  unfold Monomial.read at h
  split at h
  · rename_i c hstray
    cases h
    obtain ⟨kind, hkind, hc⟩ := List.exists_of_findSome?_eq_some hstray
    cases kind with
    | invalid c' =>
        cases hc
        exact .strayCharacter hkind
    | _ => cases hc
  · cases hcoefficient : readCoefficient body with
    | error found =>
        rw [hcoefficient] at h
        cases h
        exact flawIn_of_readCoefficient hcoefficient
    | ok result =>
        obtain ⟨c, behind⟩ := result
        have hbehind : (readTimes behind).2 ⊆ body := fun kind hkind =>
          subset_of_readCoefficient hcoefficient (readTimes_subset behind hkind)
        rw [hcoefficient] at h
        simp only [bind, Except.bind] at h
        cases hvariable : readVariable c.isSome (readTimes behind).1 (readTimes behind).2 with
        | error found =>
            rw [hvariable] at h
            cases h
            exact (flawIn_of_readVariable hvariable).mono hbehind
        | ok result =>
            obtain ⟨n, rest⟩ := result
            rw [hvariable] at h
            cases rest with
            | nil => cases h
            | cons kind rest =>
                cases h
                exact .unexpected (hbehind (subset_of_readVariable hvariable List.mem_cons_self))

theorem bodyOf_subset (term : List Token) : bodyOf term ⊆ term.map Token.kind := by
  cases term with
  | nil => exact List.Subset.refl _
  | cons token term =>
      rw [bodyOf]
      split
      · exact List.subset_cons_self _ _
      · exact List.Subset.refl _

/-- The flaw of a term that cannot be read is one of its body. -/
theorem flawIn_bodyOf_of_readTerm {side : Side} {term : List Token} {flaw : Flaw}
    (h : readTerm side term = .error flaw) : FlawIn (bodyOf term) flaw := by
  unfold readTerm at h
  cases hread : Monomial.read (bodyOf term) with
  | error found =>
      rw [hread] at h
      cases h
      exact flawIn_of_read hread
  | ok m =>
      rw [hread] at h
      cases h

theorem flawIn_of_readTerm {side : Side} {term : List Token} {flaw : Flaw}
    (h : readTerm side term = .error flaw) : FlawIn (term.map Token.kind) flaw :=
  (flawIn_bodyOf_of_readTerm h).mono (bodyOf_subset term)

/-! ## Faults -/

/-- The fault of a text with these tokens: no `=` or one too many, a side without a token, or a run
of tokens with a flaw. -/
inductive FaultOf (source : List Char) (tokens : List Token) : Fault → Prop
  | missing : FaultOf source tokens (.format 0 ⟨0, byteLength source⟩)
  | repeated {count : Nat} {second : Token} (hcount : 2 ≤ count) (hsecond : second ∈ tokens) :
      FaultOf source tokens (.format count second.span)
  | empty {equals : Token} (side : Side) (hequals : equals ∈ tokens) :
      FaultOf source tokens (.term [] (.emptySide side) equals.span)
  | flawed {l run r : List Token} {flaw : Flaw} (htokens : tokens = l ++ (run ++ r)) (hne : run ≠ [])
      (hflaw : FlawIn (run.map Token.kind) flaw ∨ ∃ n, flaw = .tooLarge n) :
      FaultOf source tokens (.term ((spanOf run).slice source) flaw (spanOf run))

/-- The fault of the terms of a side is the flaw of one of them, which cannot be read or makes a sum too
large. -/
theorem exists_term_of_addTerms {source : List Char} {side : Side} {sums : Sums}
    {terms : List (List Token)} {fault : Fault}
    (h : (addTerms source side sums terms).outcome = .error fault) :
    ∃ term ∈ terms, ∃ flaw, (readTerm side term = .error flaw ∨ ∃ n, flaw = .tooLarge n) ∧
      fault = .term ((spanOf term).slice source) flaw (spanOf term) := by
  have haccounts := accounts_addTerms source side sums terms
  rw [h] at haccounts
  obtain ⟨before, sided, after, flaw, hterms, hfault, hcause⟩ := haccounts
  have hmem : sided ∈ terms.map (side, ·) := by simp [hterms]
  obtain ⟨term, hterm, rfl⟩ := List.mem_map.mp hmem
  refine ⟨term, hterm, flaw, ?_, hfault⟩
  rcases hcause with ⟨-, hread⟩ | ⟨n, hn, -⟩
  · exact .inl hread
  · exact .inr ⟨n, hn⟩

/-- It quotes nothing but tokens of the term. -/
theorem exists_flaw_of_addTerms {source : List Char} {side : Side} {sums : Sums}
    {terms : List (List Token)} {fault : Fault}
    (h : (addTerms source side sums terms).outcome = .error fault) :
    ∃ term ∈ terms, ∃ flaw, (FlawIn (term.map Token.kind) flaw ∨ ∃ n, flaw = .tooLarge n) ∧
      fault = .term ((spanOf term).slice source) flaw (spanOf term) := by
  obtain ⟨term, hterm, flaw, hcause, hfault⟩ := exists_term_of_addTerms h
  exact ⟨term, hterm, flaw, hcause.imp_left flawIn_of_readTerm, hfault⟩

/-- A term of a side is a run of its tokens. -/
theorem exists_run_of_mem_splitTerms {tokens run : List Token} (h : run ∈ splitTerms tokens) :
    run ≠ [] ∧ ∃ l r, tokens = l ++ (run ++ r) := by
  refine ⟨List.ne_nil_of_mem_splitBy h, ?_⟩
  obtain ⟨before, after, hterms⟩ := List.append_of_mem h
  refine ⟨before.flatten, after.flatten, ?_⟩
  rw [← List.flatten_splitBy (fun _ token : Token => !token.kind.isSign) tokens, ← splitTerms, hterms,
    List.flatten_append, List.flatten_cons]

/-- The fault of a side, of which the `=` stands beside it. -/
theorem faultOf_of_addSide {source : List Char} {side : Side} {sums : Sums} {equals : Token}
    {tokens part l r : List Token} {fault : Fault} (htokens : tokens = l ++ (part ++ r))
    (hequals : equals ∈ tokens)
    (h : (addSide source side sums equals part).outcome = .error fault) :
    FaultOf source tokens fault := by
  unfold addSide at h
  split at h
  · cases h
    exact .empty side hequals
  · obtain ⟨run, hrun, flaw, hflaw, rfl⟩ := exists_flaw_of_addTerms h
    obtain ⟨hne, l', r', rfl⟩ := exists_run_of_mem_splitTerms hrun
    have hrun' : tokens = l ++ l' ++ (run ++ (r' ++ r)) := by
      rw [htokens]
      simp only [List.append_assoc]
    exact .flawed hrun' hne hflaw

theorem mem_of_filter_eq {tokens found : List Token}
    (h : tokens.filter (fun t => t.kind == .equals) = found) {token : Token} (htoken : token ∈ found) :
    token ∈ tokens :=
  List.mem_of_mem_filter (h ▸ htoken)

/-- With one `=`, the fault is that of the first side that has one. -/
theorem faultOf_of_sides {source : List Char} {tokens : List Token} {equals : Token} {fault : Fault}
    (hfilter : tokens.filter (fun t => t.kind == .equals) = [equals])
    (h : (reduce source tokens).outcome = .error fault) : FaultOf source tokens fault := by
  have hequals : equals ∈ tokens := mem_of_filter_eq hfilter (List.mem_singleton_self equals)
  rw [outcome_reduce_eq_error_iff source hfilter] at h
  set left := tokens.takeWhile fun t => !(t.kind == .equals)
  set behind := tokens.dropWhile fun t => !(t.kind == .equals)
  have hcut : tokens = left ++ behind := List.takeWhile_append_dropWhile.symm
  rcases h with hleft | ⟨s, -, hright⟩
  · exact faultOf_of_addSide (l := []) hcut hequals hleft
  · -- the `=` is the first token behind the left side
    have hparts : tokens = left ++ behind.take 1 ++ (behind.drop 1 ++ []) := by
      rw [List.append_nil, List.append_assoc, List.take_append_drop, ← hcut]
    exact faultOf_of_addSide hparts hequals hright

theorem faultOf_of_reduce {source : List Char} {tokens : List Token} {fault : Fault}
    (h : (reduce source tokens).outcome = .error fault) : FaultOf source tokens fault := by
  cases hfilter : tokens.filter fun t => t.kind == .equals with
  | nil =>
      simp only [reduce, hfilter] at h
      cases h
      exact .missing
  | cons first others =>
      cases others with
      | nil => exact faultOf_of_sides hfilter h
      | cons second rest =>
          have hsecond : second ∈ tokens :=
            mem_of_filter_eq hfilter (List.mem_cons_of_mem first List.mem_cons_self)
          simp only [reduce, hfilter] at h
          cases h
          exact .repeated (by simp) hsecond

theorem faultOf_of_parse {source : String} {fault : Fault} (h : parse source = .error fault) :
    FaultOf source.toList (tokensFrom 0 source.toList) fault := by
  rw [parse_eq_reduce] at h
  exact faultOf_of_reduce h

/-! ## Spans of faults -/

theorem exists_covers_of_mem {text : List Char} {tokens : List Token} (h : LaidOut 0 text tokens)
    {token : Token} (htoken : token ∈ tokens) :
    ∃ before marked after, Covers text token.span before marked after := by
  obtain ⟨l, r, rfl⟩ := List.append_of_mem htoken
  have hspan : spanOf [token] = token.span := by
    show token.span.join token.span = token.span
    rw [Span.join, min_self, max_self]
  have hne : [token] ≠ [] := List.cons_ne_nil _ _
  have hcovers := h.exists_covers hne
  rwa [hspan] at hcovers

/-- **A fault is about a part of the text**: its span starts and ends between two characters. -/
theorem exists_covers_of_parse {source : String} {fault : Fault}
    (h : parse source = .error fault) :
    ∃ before marked after, Covers source.toList fault.span before marked after := by
  have hlaid := laidOut_tokensFrom 0 source.toList
  cases faultOf_of_parse h with
  | missing =>
      refine ⟨[], source.toList, [], ?_, ?_⟩
      · rw [List.nil_append, List.append_nil]
      · rw [byteLength_nil, Nat.zero_add]
        rfl
  | repeated _ hsecond => exact exists_covers_of_mem hlaid hsecond
  | empty _ hequals => exact exists_covers_of_mem hlaid hequals
  | flawed htokens hne _ =>
      rw [htokens] at hlaid
      exact hlaid.exists_covers hne

end Quadra.Equation
