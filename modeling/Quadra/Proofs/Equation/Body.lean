import Quadra.Proofs.Equation.Grammar

set_option autoImplicit false

/-!
# Reading the body of a term

`Monomial.read` accepts exactly the bodies of the grammar, and the monomial that it finds has the
number nearest to the coefficient: `Monomial.read_eq_ok_iff`.
-/

namespace Quadra.Equation

/-- The number nearest to a coefficient, or one where none is written. -/
def nearestCoefficient (literal : Option (List Char)) : Binary64 :=
  .nearest (literal.elim 1 Numeral.value)

/-! ## Numbers in a term -/

theorem IsCoefficient.ofNumeral? {text : List Char} (h : IsCoefficient text) :
    Binary64.ofNumeral? text = some (nearestCoefficient (some text)) ∧
      (nearestCoefficient (some text)).isFinite = true := by
  obtain ⟨x, hx, hfinite⟩ := h
  have heq : x = nearestCoefficient (some text) := by
    unfold Binary64.ofNumeral? at hx
    split at hx
    · exact (Option.some.inj hx).symm
    · cases hx
  exact heq ▸ ⟨hx, hfinite⟩

theorem powerOf?_eq_some_iff (text : List Char) (n : Power) :
    powerOf? text = some n ↔ IsExponent text n := by
  -- two checks stand in the way: the range of powers, and a point in the text
  by_cases hlt : Nat.ofDigitChars 10 text 0 < 4294967296
  · by_cases hall : text.all Char.isDigit
    · have hdigits : ∀ c ∈ text, c.isDigit = true := List.all_eq_true.mp hall
      simp only [powerOf?, dif_pos hlt, if_pos hall, Option.some.injEq, Fin.ext_iff, IsExponent]
      exact ⟨fun h => ⟨hdigits, h⟩, fun h => h.2⟩
    · simp only [powerOf?, dif_pos hlt, if_neg hall, reduceCtorEq, false_iff]
      exact fun h => hall (List.all_eq_true.mpr h.1)
  · simp only [powerOf?, dif_neg hlt, reduceCtorEq, false_iff]
    exact fun h => hlt (h.2 ▸ n.isLt)

/-! ## The parts of a body -/

theorem readCoefficient_eq_ok {kinds rest : List Kind} {c : Option Binary64}
    (h : readCoefficient kinds = .ok (c, rest)) :
    (∃ text, kinds = .number text :: rest ∧ IsCoefficient text ∧
      c = some (nearestCoefficient (some text))) ∨ (c = none ∧ rest = kinds) := by
  unfold readCoefficient at h
  split at h
  · rename_i text others
    split at h
    · rename_i x hx
      split at h
      · rename_i hfinite
        cases h
        have hc : IsCoefficient text := ⟨x, hx, hfinite⟩
        refine Or.inl ⟨text, rfl, hc, ?_⟩
        rw [← hx, hc.ofNumeral?.1]
      · cases h
    · cases h
  · cases h
    exact Or.inr ⟨rfl, rfl⟩

theorem readTimes_eq (kinds : List Kind) :
    kinds = (if (readTimes kinds).1 then [.times] else []) ++ (readTimes kinds).2 := by
  unfold readTimes
  split <;> rfl

theorem readVariable_eq_ok {hasCoefficient hasTimes : Bool} {kinds rest : List Kind} {n : Power}
    (h : readVariable hasCoefficient hasTimes kinds = .ok (n, rest)) :
    (∃ v, IsVariable v n ∧ kinds = v ++ rest) ∨
      (hasCoefficient = true ∧ hasTimes = false ∧ n = .zero ∧ rest = kinds) := by
  unfold readVariable at h
  split at h
  · -- an exponent must follow
    unfold readExponent at h
    split at h
    · split at h
      · rename_i text _ power hpower
        cases h
        exact Or.inl ⟨_, .raised ((powerOf?_eq_some_iff _ n).mp hpower), rfl⟩
      · cases h
    · cases h
  · cases h
    exact Or.inl ⟨_, .bare, rfl⟩
  · split at h
    · cases h
    · split at h
      · rename_i htimes hcoefficient
        cases h
        exact Or.inr ⟨hcoefficient, Bool.eq_false_iff.mpr htimes, rfl, rfl⟩
      · split at h <;> cases h

/-- The coefficient, the multiplication sign and the variable are all the tokens of the body. -/
def ReadsParts (body : List Kind) (c : Option Binary64) (n : Power) : Prop :=
  ∃ behind, readCoefficient body = .ok (c, behind) ∧
    readVariable c.isSome (readTimes behind).1 (readTimes behind).2 = .ok (n, [])

/-- A body is read part by part. -/
theorem read_eq_ok_iff_parts (body : List Kind) (m : Monomial) :
    Monomial.read body = .ok m ↔ body.findSome? Kind.stray? = none ∧
      ∃ c, ReadsParts body c m.power ∧ m.coefficient = c.getD 1 := by
  constructor
  · intro h
    unfold Monomial.read at h
    split at h
    · cases h
    · rename_i hstray
      refine ⟨hstray, ?_⟩
      cases hc : readCoefficient body with
      | error flaw => rw [hc] at h; cases h
      | ok found =>
          obtain ⟨c, behind⟩ := found
          rw [hc] at h
          simp only [bind, Except.bind] at h
          cases hv : readVariable c.isSome (readTimes behind).1 (readTimes behind).2 with
          | error flaw => rw [hv] at h; cases h
          | ok found =>
              obtain ⟨n, rest⟩ := found
              rw [hv] at h
              cases rest with
              | cons kind rest => cases h
              | nil =>
                  cases h
                  exact ⟨c, ⟨behind, hc, hv⟩, rfl⟩
  · rintro ⟨hstray, c, ⟨behind, hc, hv⟩, hcoefficient⟩
    unfold Monomial.read
    rw [hstray, hc]
    simp only [bind, Except.bind]
    rw [hv, ← hcoefficient]

/-- Whatever is read has the form of a body. -/
theorem isBody_of_read {body : List Kind} {m : Monomial} (h : Monomial.read body = .ok m) :
    ∃ literal, IsBody body literal m.power ∧ m.coefficient = nearestCoefficient literal := by
  obtain ⟨-, c, ⟨behind, hc, hv⟩, hcoefficient⟩ := (read_eq_ok_iff_parts body m).mp h
  have htimes := readTimes_eq behind
  -- the forms differ in which of the three parts they have
  rcases readCoefficient_eq_ok hc with ⟨text, rfl, hnumber, rfl⟩ | ⟨rfl, rfl⟩
  · refine ⟨some text, ?_, hcoefficient⟩
    rcases readVariable_eq_ok hv with ⟨v, hvar, hrest⟩ | ⟨-, hnone, hzero, hrest⟩
    · rw [hrest, List.append_nil] at htimes
      rw [htimes]
      cases (readTimes behind).1 with
      | true => exact .product hnumber hvar
      | false => exact .adjacent hnumber hvar
    · rw [hnone, ← hrest] at htimes
      rw [htimes, hzero]
      exact .constant hnumber
  · refine ⟨none, ?_, hcoefficient⟩
    rcases readVariable_eq_ok hv with ⟨v, hvar, hrest⟩ | ⟨habsurd, -⟩
    · rw [hrest, List.append_nil] at htimes
      rw [htimes]
      cases (readTimes behind).1 with
      | true => exact .starred hvar
      | false => exact .plain hvar
    · -- a term without a coefficient has a variable
      cases habsurd

/-! ## Bodies of the grammar -/

theorem stray?_eq_none_of_isInner {kinds : List Kind} (h : ∀ kind ∈ kinds, kind.isInner = true) :
    kinds.findSome? Kind.stray? = none := by
  rw [List.findSome?_eq_none_iff]
  intro kind hkind
  have hinner := h kind hkind
  cases kind <;> first | rfl | cases hinner

theorem readVariable_of_isVariable {v : List Kind} {n : Power} (h : IsVariable v n)
    (hasCoefficient hasTimes : Bool) : readVariable hasCoefficient hasTimes v = .ok (n, []) := by
  cases h with
  | bare => rfl
  | raised hn => simp [readVariable, readExponent, (powerOf?_eq_some_iff _ n).mpr hn]

theorem IsVariable.eq_cons {v : List Kind} {n : Power} (h : IsVariable v n) :
    ∃ rest, v = .variable :: rest := by
  cases h
  · exact ⟨_, rfl⟩
  · exact ⟨_, rfl⟩

theorem readCoefficient_number {text : List Char} (h : IsCoefficient text) (rest : List Kind) :
    readCoefficient (.number text :: rest) =
      .ok (some (nearestCoefficient (some text)), rest) := by
  obtain ⟨hsome, hfinite⟩ := h.ofNumeral?
  simp [readCoefficient, hsome, hfinite]

/-- The parts of a body of the grammar are found again. -/
theorem IsBody.readsParts {body : List Kind} {literal : Option (List Char)} {n : Power}
    (h : IsBody body literal n) :
    ∃ c, ReadsParts body c n ∧ nearestCoefficient literal = c.getD 1 := by
  cases h with
  | constant hc => exact ⟨_, ⟨[], readCoefficient_number hc [], rfl⟩, rfl⟩
  | adjacent hc hv =>
      -- the variable is not taken for a multiplication sign
      obtain ⟨rest, rfl⟩ := hv.eq_cons
      exact ⟨_, ⟨_, readCoefficient_number hc _, readVariable_of_isVariable hv ..⟩, rfl⟩
  | product hc hv =>
      exact ⟨_, ⟨_, readCoefficient_number hc _, readVariable_of_isVariable hv ..⟩, rfl⟩
  | starred hv => exact ⟨none, ⟨_, rfl, readVariable_of_isVariable hv ..⟩, rfl⟩
  | plain hv =>
      obtain ⟨rest, rfl⟩ := hv.eq_cons
      exact ⟨none, ⟨_, rfl, readVariable_of_isVariable hv ..⟩, rfl⟩

/-- Every body of the grammar is read, and its coefficient is rounded once. -/
theorem read_of_isBody {body : List Kind} {literal : Option (List Char)} {n : Power}
    (h : IsBody body literal n) : Monomial.read body = .ok ⟨nearestCoefficient literal, n⟩ :=
  (read_eq_ok_iff_parts ..).mpr ⟨stray?_eq_none_of_isInner h.isInner, h.readsParts⟩

/-- The bodies that are read are those of the grammar. -/
theorem Monomial.read_eq_ok_iff (body : List Kind) (m : Monomial) :
    Monomial.read body = .ok m ↔
      ∃ literal, IsBody body literal m.power ∧ m.coefficient = nearestCoefficient literal := by
  constructor
  · exact isBody_of_read
  · rintro ⟨literal, hbody, hcoefficient⟩
    rw [read_of_isBody hbody, ← hcoefficient]

end Quadra.Equation
