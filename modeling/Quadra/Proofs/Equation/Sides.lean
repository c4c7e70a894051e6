import Mathlib.Data.List.SplitBy
import Mathlib.Data.List.TakeWhile
import Quadra.Proofs.Binary64.Arithmetic
import Quadra.Proofs.Equation.Body

set_option autoImplicit false

/-!
# Reading a side

A side is cut in front of every sign, and every piece is read by itself. The pieces of a side of the
grammar are its terms (`IsSide.readings_eq`), and tokens whose pieces can all be read are a side
(`exists_isSide`).
-/

namespace Quadra.Equation

/-! ## Cutting a side -/

/-- Tokens of which only the first may be a sign are not cut. -/
theorem isChain_of_isSign_eq_false (first : Token) {inner : List Token}
    (hinner : ∀ t ∈ inner, t.kind.isSign = false) :
    (first :: inner).IsChain fun _ token => (!token.kind.isSign) = true := by
  induction inner generalizing first with
  | nil => exact .singleton first
  | cons t inner ih =>
      obtain ⟨ht, hinner⟩ := List.forall_mem_cons.mp hinner
      exact List.isChain_cons_cons.mpr ⟨by rw [ht]; rfl, ih t hinner⟩

/-- A side is cut in front of a sign, whatever stands there. -/
theorem splitTerms_append (front : List Token) {back : List Token}
    (hback : ∀ t ∈ back.head?, t.kind.isSign = true) :
    splitTerms (front ++ back) = splitTerms front ++ splitTerms back := by
  refine List.splitBy_append fun _ _ t ht => ?_
  rw [hback t ht]
  rfl

/-- A piece reaches up to the next sign. -/
theorem splitTerms_cons_append (first : Token) {inner rest : List Token}
    (hinner : ∀ t ∈ inner, t.kind.isSign = false)
    (hrest : ∀ t ∈ rest.head?, t.kind.isSign = true) :
    splitTerms (first :: (inner ++ rest)) = (first :: inner) :: splitTerms rest := by
  have hpiece : splitTerms (first :: inner) = [first :: inner] :=
    List.splitBy_of_isChain (List.cons_ne_nil first inner) (isChain_of_isSign_eq_false first hinner)
  rw [← List.cons_append, splitTerms_append (first :: inner) hrest, hpiece]
  rfl

/-- Every list is the items up to the next one that passes the test, and the rest. -/
theorem exists_piece {α : Type} (p : α → Bool) (items : List α) :
    ∃ inner rest, items = inner ++ rest ∧ (∀ x ∈ inner, p x = false) ∧ ∀ x ∈ rest.head?, p x = true := by
  refine ⟨items.takeWhile (!p ·), items.dropWhile (!p ·), List.takeWhile_append_dropWhile.symm, ?_, ?_⟩
  · intro x hx
    simpa using List.mem_takeWhile_imp hx
  · intro x hx
    have := List.head?_dropWhile_not (!p ·) items
    rw [Option.mem_def.mp hx] at this
    simpa using this

/-- A statement about lists follows from what it says about a piece and the items behind it. -/
theorem pieces_induction {α : Type} (p : α → Bool) {motive : List α → Prop} (nil : motive [])
    (piece : ∀ first inner rest, (∀ x ∈ inner, p x = false) → (∀ x ∈ rest.head?, p x = true) →
      motive rest → motive (first :: (inner ++ rest)))
    (items : List α) : motive items := by
  -- the rest behind a piece is shorter
  induction hlength : items.length using Nat.strong_induction_on generalizing items with
  | _ length ih =>
      cases items with
      | nil => exact nil
      | cons first items =>
          obtain ⟨inner, rest, rfl, hinner, hrest⟩ := exists_piece p items
          refine piece first inner rest hinner hrest (ih rest.length ?_ rest rfl)
          rw [← hlength, List.length_cons, List.length_append]
          omega

/-! ## Reading a piece -/

theorem isSign_eq_true_iff (kind : Kind) :
    kind.isSign = true ↔ ∃ subtracted, kind = signKind subtracted := by
  constructor
  · intro h
    cases kind with
    | plus => exact ⟨false, rfl⟩
    | minus => exact ⟨true, rfl⟩
    | _ => cases h
  · rintro ⟨subtracted, rfl⟩
    exact isSign_signKind subtracted

theorem isSign_eq_false_of_isInner {kind : Kind} (h : kind.isInner = true) :
    kind.isSign = false := by
  cases kind <;> first | rfl | cases h

theorem isFinite_nearestCoefficient {body : List Kind} {literal : Option (List Char)} {n : Power}
    (h : IsBody body literal n) : (nearestCoefficient literal).isFinite = true := by
  have hone : (nearestCoefficient none).isFinite = true := Binary64.isFinite_ofNat_one
  cases h with
  | constant hc => exact hc.ofNumeral?.2
  | adjacent hc => exact hc.ofNumeral?.2
  | product hc => exact hc.ofNumeral?.2
  | starred => exact hone
  | plain => exact hone

/-- Two sign changes are two multiplications with `1` or `-1`. -/
theorem coefficient_monomial (side : Side) {t : Term} (hfinite : t.coefficient.isFinite = true) :
    (t.monomial side).coefficient =
      (let signed := if t.subtracted then -t.coefficient else t.coefficient
        if side = .right then -signed else signed) := by
  have hneg : (-t.coefficient).isFinite = true := by
    rw [← hfinite]
    exact Binary64.isFinite_neg _
  show t.coefficient * (if t.subtracted then -1 else 1) * side.sign = _
  cases t.subtracted <;> cases side <;>
    simp [Side.sign, Binary64.mul_one_of_isFinite, Binary64.mul_neg_one_of_isFinite, hfinite, hneg]

/-- A piece without its sign is a body of the grammar when it is read. -/
theorem isBody_of_readTerm {side : Side} {term : List Token} {m : Monomial}
    (h : readTerm side term = .ok m) : ∃ literal, IsBody (bodyOf term) literal m.power := by
  unfold readTerm at h
  cases hread : Monomial.read (bodyOf term) with
  | error flaw => rw [hread] at h; cases h
  | ok found =>
      rw [hread] at h
      cases h
      obtain ⟨literal, hbody, -⟩ := (Monomial.read_eq_ok_iff ..).mp hread
      exact ⟨literal, hbody⟩

theorem bodyOf_of_isSign {first : Token} (h : first.kind.isSign = true) (inner : List Token) :
    bodyOf (first :: inner) = inner.map Token.kind := by
  simp [bodyOf, h]

theorem bodyOf_of_isSign_eq_false {first : Token} (h : first.kind.isSign = false)
    (inner : List Token) : bodyOf (first :: inner) = (first :: inner).map Token.kind := by
  simp [bodyOf, h]

/-- A piece that is a term of the grammar is read as its monomial. -/
theorem readTerm_eq_ok (side : Side) {term : List Token} {literal : Option (List Char)} {n : Power}
    (hbody : IsBody (bodyOf term) literal n) :
    readTerm side term = .ok (Term.monomial side ⟨isSubtracted term, literal, n⟩) := by
  unfold readTerm
  rw [read_of_isBody hbody]
  refine congrArg Except.ok ?_
  have hfinite : (Term.mk (isSubtracted term) literal n).coefficient.isFinite = true :=
    isFinite_nearestCoefficient hbody
  have hcoefficient := coefficient_monomial side hfinite
  simp only at hcoefficient
  rw [Monomial.mk.injEq, hcoefficient]
  exact ⟨rfl, rfl⟩

theorem isSubtracted_of_kind_eq {first : Token} {subtracted : Bool}
    (h : first.kind = signKind subtracted) (inner : List Token) :
    isSubtracted (first :: inner) = subtracted := by
  obtain ⟨kind, span⟩ := first
  cases h
  cases subtracted <;> rfl

theorem isSubtracted_of_isSign_eq_false {first : Token} (h : first.kind.isSign = false)
    (inner : List Token) : isSubtracted (first :: inner) = false := by
  obtain ⟨kind, span⟩ := first
  cases kind <;> first | rfl | cases h

/-! ## Terms by their kinds -/

/-- A change of the tokens that keeps the signs where they are keeps the pieces. -/
theorem splitTerms_map {f : Token → Token} (hf : ∀ t, (f t).kind.isSign = t.kind.isSign)
    (tokens : List Token) : splitTerms (tokens.map f) = (splitTerms tokens).map (List.map f) := by
  induction tokens using pieces_induction (fun t : Token => t.kind.isSign) with
  | nil => rfl
  | piece first inner rest hinner hrest ih =>
      have hinner' : ∀ t ∈ inner.map f, t.kind.isSign = false := by
        simpa [hf] using hinner
      have hrest' : ∀ t ∈ (rest.map f).head?, t.kind.isSign = true := by
        simpa [hf] using hrest
      rw [List.map_cons, List.map_append, splitTerms_cons_append (f first) hinner' hrest', ih,
        splitTerms_cons_append first hinner hrest, List.map_cons, List.map_cons]

/-- A token of this kind, wherever it stands. -/
def Token.ofKind (kind : Kind) : Token := ⟨kind, ⟨0, 0⟩⟩

theorem readTerm_congr (side : Side) {term term' : List Token}
    (h : term.map Token.kind = term'.map Token.kind) : readTerm side term = readTerm side term' := by
  have hparts : bodyOf term = bodyOf term' ∧ isSubtracted term = isSubtracted term' := by
    cases term with
    | nil =>
        rw [List.map_eq_nil_iff.mp h.symm]
        exact ⟨rfl, rfl⟩
    | cons first rest =>
        obtain ⟨kind, span⟩ := first
        obtain ⟨⟨kind', span'⟩, rest', rfl, hkind, hrest⟩ := List.map_eq_cons_iff.mp h.symm
        obtain rfl : kind' = kind := hkind
        by_cases hsign : kind'.isSign = true
        · rw [bodyOf_of_isSign hsign, bodyOf_of_isSign hsign]
          exact ⟨hrest.symm, by cases kind' <;> rfl⟩
        · have hsign := Bool.eq_false_iff.mpr hsign
          rw [bodyOf_of_isSign_eq_false hsign, bodyOf_of_isSign_eq_false hsign]
          exact ⟨h, by cases kind' <;> rfl⟩
  rw [readTerm, readTerm, hparts.1, hparts.2]

/-- What the terms of a side are read as, given the kinds of its tokens. -/
def readings (side : Side) (kinds : List Kind) : List (Except Flaw Monomial) :=
  (splitTerms (kinds.map Token.ofKind)).map (readTerm side)

theorem map_readTerm_splitTerms (side : Side) (tokens : List Token) :
    (splitTerms tokens).map (readTerm side) = readings side (tokens.map Token.kind) := by
  have hsame : ∀ t : Token, (Token.ofKind t.kind).kind.isSign = t.kind.isSign := fun _ => rfl
  rw [readings, List.map_map]
  show _ = (splitTerms (tokens.map fun t => Token.ofKind t.kind)).map (readTerm side)
  rw [splitTerms_map hsame, List.map_map]
  refine List.map_congr_left fun term _ => readTerm_congr side ?_
  rw [List.map_map]
  rfl

theorem map_kind_map_ofKind (kinds : List Kind) : (kinds.map Token.ofKind).map Token.kind = kinds := by
  rw [List.map_map]
  exact List.map_id kinds

/-- A term reaches up to the next sign. -/
theorem readings_cons_append (side : Side) (first : Kind) {inner rest : List Kind}
    (hinner : ∀ kind ∈ inner, kind.isSign = false) (hrest : ∀ kind ∈ rest.head?, kind.isSign = true) :
    readings side (first :: (inner ++ rest)) =
      readTerm side ((first :: inner).map Token.ofKind) :: readings side rest := by
  have hinner' : ∀ t ∈ inner.map Token.ofKind, t.kind.isSign = false := by
    simpa [Token.ofKind] using hinner
  have hrest' : ∀ t ∈ (rest.map Token.ofKind).head?, t.kind.isSign = true := by
    simpa [Token.ofKind] using hrest
  rw [readings, List.map_cons, List.map_append, splitTerms_cons_append _ hinner' hrest']
  rfl

/-- Terms with a sign may follow any others. -/
theorem readings_append (side : Side) (front : List Kind) {back : List Kind}
    (hback : ∀ kind ∈ back.head?, kind.isSign = true) :
    readings side (front ++ back) = readings side front ++ readings side back := by
  have hback' : ∀ t ∈ (back.map Token.ofKind).head?, t.kind.isSign = true := by
    simpa [Token.ofKind] using hback
  rw [readings, List.map_append, splitTerms_append _ hback', List.map_append]
  rfl

/-! ## Sides of the grammar are read -/

theorem AreSigned.isSign_head? {kinds : List Kind} {terms : List Term} (h : AreSigned kinds terms) :
    ∀ kind ∈ kinds.head?, kind.isSign = true := by
  intro kind hkind
  cases h with
  | nil => cases hkind
  | cons subtracted _ _ =>
      cases hkind
      exact isSign_signKind subtracted

/-- The tokens of a body have no sign. -/
theorem IsBody.isSign_eq_false {body : List Kind} {literal : Option (List Char)} {n : Power}
    (h : IsBody body literal n) : ∀ kind ∈ body, kind.isSign = false :=
  fun kind hkind => isSign_eq_false_of_isInner (h.isInner kind hkind)

/-- Signed terms are read one by one. -/
theorem AreSigned.readings_eq (side : Side) {kinds : List Kind} {terms : List Term}
    (h : AreSigned kinds terms) : readings side kinds = (terms.map (Term.monomial side)).map .ok := by
  induction h with
  | nil => rfl
  | @cons body rest terms literal n subtracted first others ih =>
      have hbody : bodyOf ((signKind subtracted :: body).map Token.ofKind) = body := by
        rw [List.map_cons, bodyOf_of_isSign (isSign_signKind subtracted), map_kind_map_ofKind]
      have hsign : isSubtracted ((signKind subtracted :: body).map Token.ofKind) = subtracted :=
        isSubtracted_of_kind_eq rfl _
      rw [readings_cons_append side _ first.isSign_eq_false others.isSign_head?, ih,
        readTerm_eq_ok side (hbody.symm ▸ first), hsign]
      rfl

/-- The pieces of a side are its terms. -/
theorem IsSide.readings_eq (side : Side) {kinds : List Kind} {terms : List Term}
    (h : IsSide kinds terms) : readings side kinds = (terms.map (Term.monomial side)).map .ok := by
  cases h with
  | signed all => exact all.readings_eq side
  | @unsigned body rest terms literal n first others =>
      cases body with
      | nil => exact absurd rfl first.ne_nil
      | cons start inner =>
          obtain ⟨hstart, hinner⟩ := List.forall_mem_cons.mp first.isSign_eq_false
          have hbody : bodyOf ((start :: inner).map Token.ofKind) = start :: inner := by
            rw [List.map_cons, bodyOf_of_isSign_eq_false hstart, ← List.map_cons, map_kind_map_ofKind]
          have hsign : isSubtracted ((start :: inner).map Token.ofKind) = false :=
            isSubtracted_of_isSign_eq_false hstart _
          rw [List.cons_append, readings_cons_append side _ hinner others.isSign_head?,
            others.readings_eq side, readTerm_eq_ok side (hbody.symm ▸ first), hsign]
          rfl

/-! ## Whatever is read is a side of the grammar -/

/-- Every piece can be read as a term. -/
def AllRead (side : Side) (tokens : List Token) : Prop :=
  ∀ term ∈ splitTerms tokens, ∃ m, readTerm side term = .ok m

theorem allRead_of_map {side : Side} {tokens : List Token} {ms : List Monomial}
    (h : (splitTerms tokens).map (readTerm side) = ms.map .ok) : AllRead side tokens := by
  intro term hterm
  have hmem : readTerm side term ∈ ms.map .ok := h ▸ List.mem_map_of_mem hterm
  obtain ⟨m, -, hm⟩ := List.mem_map.mp hmem
  exact ⟨m, hm.symm⟩

theorem allRead_cons_append {side : Side} {first : Token} {inner rest : List Token}
    (hinner : ∀ t ∈ inner, t.kind.isSign = false)
    (hrest : ∀ t ∈ rest.head?, t.kind.isSign = true) (h : AllRead side (first :: (inner ++ rest))) :
    (∃ m, readTerm side (first :: inner) = .ok m) ∧ AllRead side rest := by
  rw [AllRead, splitTerms_cons_append first hinner hrest] at h
  exact List.forall_mem_cons.mp h

/-- Tokens that start with a sign are signed terms when all pieces are read. -/
theorem exists_areSigned {side : Side} {tokens : List Token}
    (hhead : ∀ t ∈ tokens.head?, t.kind.isSign = true) (h : AllRead side tokens) :
    ∃ terms, AreSigned (tokens.map Token.kind) terms := by
  induction tokens using pieces_induction (fun t : Token => t.kind.isSign) with
  | nil => exact ⟨[], .nil⟩
  | piece first inner rest hinner hrest ih =>
      obtain ⟨⟨m, hread⟩, hothers⟩ := allRead_cons_append hinner hrest h
      obtain ⟨terms, hterms⟩ := ih hrest hothers
      have hsign := hhead first rfl
      obtain ⟨literal, hbody⟩ := isBody_of_readTerm hread
      obtain ⟨subtracted, hsubtracted⟩ := (isSign_eq_true_iff _).mp hsign
      rw [bodyOf_of_isSign hsign] at hbody
      refine ⟨⟨subtracted, literal, m.power⟩ :: terms, ?_⟩
      rw [List.map_cons, hsubtracted, List.map_append]
      exact .cons subtracted hbody hterms

theorem AreSigned.kinds_eq_nil {kinds : List Kind} (h : AreSigned kinds []) : kinds = [] := by
  cases h
  rfl

/-- Tokens are a side of the grammar when there is one and all pieces are read. -/
theorem exists_isSide {side : Side} {tokens : List Token} (hne : tokens ≠ [])
    (h : AllRead side tokens) : ∃ terms, IsSide (tokens.map Token.kind) terms := by
  cases tokens with
  | nil => exact absurd rfl hne
  | cons first tokens =>
      by_cases hsign : first.kind.isSign
      · have hhead : ∀ t ∈ (first :: tokens).head?, t.kind.isSign = true :=
          fun t ht => Option.some.inj (Option.mem_def.mp ht) ▸ hsign
        obtain ⟨terms, hterms⟩ := exists_areSigned hhead h
        cases terms with
        | nil => exact absurd hterms.kinds_eq_nil (List.cons_ne_nil _ _)
        | cons => exact ⟨_, .signed hterms⟩
      · have hsign := Bool.eq_false_iff.mpr hsign
        obtain ⟨inner, rest, rfl, hinner, hrest⟩ := exists_piece (fun t : Token => t.kind.isSign) tokens
        obtain ⟨⟨m, hread⟩, hothers⟩ := allRead_cons_append hinner hrest h
        obtain ⟨terms, hterms⟩ := exists_areSigned hrest hothers
        obtain ⟨literal, hbody⟩ := isBody_of_readTerm hread
        rw [bodyOf_of_isSign_eq_false hsign] at hbody
        refine ⟨⟨false, literal, m.power⟩ :: terms, ?_⟩
        rw [← List.cons_append, List.map_append]
        exact .unsigned hbody hterms

end Quadra.Equation
