import Quadra.Proofs.Equation.Canonical
import Quadra.Proofs.Polynomial.Significance
import Quadra.Solution.Solve

set_option autoImplicit false

/-!
# Reading the canonical form

The canonical form of a polynomial is read as the polynomial itself, bit by bit: `parse_canonical`.
Every coefficient is added to a zero, and so are the zeros that the form has beside its
coefficients; none of these sums changes anything.
-/

namespace Quadra

/-- All coefficients are finite, as they are after reading an equation. -/
def Polynomial.HasFiniteCoefficients (p : Polynomial) : Prop :=
  ∀ entry ∈ p.coefficients.entries, entry.2.isFinite = true

/-- A coefficient that is not stored is zero, so that all are finite. -/
theorem Polynomial.HasFiniteCoefficients.isFinite_coefficient {p : Polynomial}
    (h : p.HasFiniteCoefficients) (n : Power) : (p.coefficient n).isFinite = true := by
  rw [coefficient]
  cases hfind : p.coefficients.find? n with
  | none => exact Binary64.isFinite_ofNat_zero
  | some c => exact h (n, c) ((p.coefficients.mem_entries_iff n c).mpr hfind)

namespace Equation

/-- A significant finite coefficient can be written. -/
theorem Writable.of_isSignificant {c : Binary64} (hc : c.isFinite = true)
    (h : isSignificant c = true) : Writable c := by
  refine ⟨hc, fun hzero => ?_⟩
  have hlt := (isSignificant_iff hc).mp h
  rw [hzero, abs_zero] at hlt
  exact absurd hlt (not_lt.mpr epsilon_bounds.1.le)

/-- What is read has finite coefficients. -/
theorem hasFiniteCoefficients_of_parse {source : String} {p : Polynomial}
    (h : parse source = .ok p) : p.HasFiniteCoefficients := by
  obtain ⟨left, right, hderives⟩ := exists_derives_of_parse h
  obtain ⟨hfinite, rfl⟩ := (parse_eq_ok_iff_of_derives hderives p).mp h
  rintro ⟨n, c⟩ hentry
  have hsum : c = sumAt n (monomials left right) :=
    eq_sumAt_of_mem_totals (List.mem_of_mem_filter hentry)
  rw [hsum]
  exact hfinite _ List.prefix_rfl n

/-! ## Monomials of the canonical form -/

/-- The term of an entry is read as the entry. -/
theorem Writable.monomial_termOf {entry : Power × Binary64} (h : Writable entry.2) :
    (termOf entry).monomial .left = ⟨entry.2, entry.1⟩ := by
  obtain ⟨q, hwrites, hread⟩ := h.magnitudeText
  have hmagnitude : (termOf entry).coefficient = Numeric.abs entry.2 := by
    rw [← hread, ← hwrites.value_eq]
    rfl
  have hfinite : (termOf entry).coefficient.isFinite = true := by
    rw [hmagnitude]
    exact Numeric.isFinite_abs h.1
  have hcoefficient : ((termOf entry).monomial .left).coefficient = entry.2 := by
    rw [coefficient_monomial .left hfinite, hmagnitude, Numeric.abs]
    show (if decide (entry.2 < 0) = true then _ else _) = entry.2
    by_cases hneg : entry.2 < 0
    · rw [if_pos (decide_eq_true hneg), if_pos hneg]
      exact Binary64.neg_neg entry.2
    · rw [if_neg (by rwa [decide_eq_true_iff]), if_neg hneg]
  exact congrArg (Monomial.mk · entry.1) hcoefficient

/-- The zero on the right side is subtracted, and so it is a negative zero. -/
theorem monomial_zeroTerm (side : Side) :
    zeroTerm.monomial side = ⟨.zero (decide (side = .right)), .zero⟩ := by
  cases side <;> decide +kernel

/-! ## Sums of the canonical form -/

/-- The monomials have the coefficients of the polynomial, each once, and zeros behind them. -/
def Restates (p : Polynomial) (ms : List Monomial) : Prop :=
  ∀ n, ∃ zs : List Binary64, coefficientsAt n ms = (p.coefficients.find? n).toList ++ zs ∧
    ∀ z ∈ zs, ∃ negative, z = .zero negative

/-- A coefficient is its own sum, also when zeros are added to it. -/
theorem foldl_add_toList {c? : Option Binary64} (hc : ∀ c ∈ c?, Writable c) {zs : List Binary64}
    (hzs : ∀ z ∈ zs, ∃ negative, z = .zero negative) :
    (c?.toList ++ zs).foldl (· + ·) 0 = c?.getD 0 := by
  cases c? with
  | none =>
      rw [Binary64.ofNat_zero]
      exact Binary64.foldl_add_zeros rfl (by decide) hzs
  | some c =>
      -- the first addition is that of the coefficient to the zero that sums start from
      obtain ⟨hfinite, hne⟩ := hc c rfl
      have hzero : c ≠ .zero true := by
        rintro rfl
        exact hne (Binary64.value_zero true)
      show zs.foldl (· + ·) (0 + c) = c
      rw [Binary64.ofNat_zero, Binary64.zero_add_of_ne false hfinite hne]
      exact Binary64.foldl_add_zeros hfinite hzero hzs

/-- The same holds of all sums on the way. -/
theorem isFinite_foldl_add_of_prefix {c? : Option Binary64} (hc : ∀ c ∈ c?, Writable c)
    {zs : List Binary64} (hzs : ∀ z ∈ zs, ∃ negative, z = .zero negative) {cs : List Binary64}
    (hcs : cs <+: c?.toList ++ zs) : (cs.foldl (· + ·) 0).isFinite = true := by
  cases c? with
  | none =>
      have hsum := foldl_add_toList hc fun z hz => hzs z (hcs.subset hz)
      rw [Option.toList_none, List.nil_append] at hsum
      rw [hsum]
      exact Binary64.isFinite_ofNat_zero
  | some c =>
      rcases List.prefix_cons_iff.mp hcs with rfl | ⟨zs', rfl, hzs'⟩
      · exact Binary64.isFinite_ofNat_zero
      · have hsum := foldl_add_toList hc fun z hz => hzs z (hzs'.subset hz)
        rw [show c :: zs' = (some c).toList ++ zs' from rfl, hsum]
        exact (hc c rfl).1

namespace Restates

variable {p : Polynomial} {ms : List Monomial} (hp : p.HasFiniteCoefficients) (h : Restates p ms)

include hp in
/-- Every coefficient of the polynomial can be written. -/
theorem writable {n : Power} : ∀ c ∈ p.coefficients.find? n, Writable c := by
  intro c hc
  have hentry := (PowerMap.mem_entries_iff p.coefficients n c).mpr hc
  exact .of_isSignificant (hp _ hentry) (p.significant _ hentry)

include hp h

theorem sumAt_eq (n : Power) : sumAt n ms = p.coefficient n := by
  obtain ⟨zs, hcoefficients, hzs⟩ := h n
  rw [sumAt, hcoefficients, foldl_add_toList (writable hp) hzs]
  rfl

theorem staysFinite : StaysFinite ms := by
  intro read hread n
  obtain ⟨zs, hcoefficients, hzs⟩ := h n
  have hprefix : coefficientsAt n read <+: coefficientsAt n ms := (hread.filter _).map _
  rw [hcoefficients] at hprefix
  exact isFinite_foldl_add_of_prefix (writable hp) hzs hprefix

/-- Adding up the monomials gives the polynomial. -/
theorem ofCoefficients_totals : .ofCoefficients (totals ms) = p := by
  refine Polynomial.ext_find? fun n => ?_
  rw [find?_ofCoefficients_totals, sumAt_eq hp h n, ← p.find?_coefficients]

end Restates

/-! ## The round trip -/

/-- The zeros of the canonical form stand behind the coefficients. -/
theorem exists_zero_of_mem_coefficientsAt (n : Power) (sides : List Side) :
    ∀ z ∈ coefficientsAt n (sides.map zeroTerm.monomial), ∃ negative, z = .zero negative := by
  intro z h
  obtain ⟨m, hm, rfl⟩ := exists_of_mem_coefficientsAt h
  obtain ⟨side, -, rfl⟩ := List.mem_map.mp hm
  exact ⟨decide (side = .right), congrArg Monomial.coefficient (monomial_zeroTerm side)⟩

/-- The terms of the entries have the coefficient of a power at most once. -/
theorem coefficientsAt_map_termOf {p : Polynomial} (hp : p.HasFiniteCoefficients) (n : Power) :
    coefficientsAt n ((p.coefficients.entries.map termOf).map (Term.monomial .left)) =
      (p.coefficients.find? n).toList := by
  have hmonomials : (p.coefficients.entries.map termOf).map (Term.monomial .left) =
      p.coefficients.entries.map fun entry => ⟨entry.2, entry.1⟩ := by
    rw [List.map_map]
    refine List.map_congr_left fun entry hentry => ?_
    exact (Writable.of_isSignificant (hp entry hentry) (p.significant entry hentry)).monomial_termOf
  rw [hmonomials, coefficientsAt, List.filter_map, List.map_map, ← PowerMap.map_filter_entries]
  rfl

/-- The canonical form says again what the polynomial is. -/
theorem restates_canonical {p : Polynomial} (hp : p.HasFiniteCoefficients) :
    Restates p (monomials (leftTerms p.coefficients.entries) [zeroTerm]) := by
  intro n
  by_cases hnil : p.coefficients.entries = []
  · have hnone : p.coefficients.find? n = none := by
      rw [PowerMap.find?_eq_findEntry, hnil]
      rfl
    -- both monomials are zeros
    refine ⟨_, ?_, exists_zero_of_mem_coefficientsAt n [.left, .right]⟩
    rw [hnone, leftTerms, if_pos hnil]
    rfl
  · -- the zero of the right side is all that is added to the entries
    refine ⟨_, ?_, exists_zero_of_mem_coefficientsAt n [.right]⟩
    rw [leftTerms, if_neg hnil, monomials, coefficientsAt_append, coefficientsAt_map_termOf hp]
    rfl

/-- The canonical form of finite coefficients is read. -/
theorem parse_canonical_of_hasFiniteCoefficients {p : Polynomial} (hp : p.HasFiniteCoefficients) :
    parse p.canonical = .ok p := by
  have hwritable : ∀ entry ∈ p.coefficients.entries, Writable entry.2 := fun entry hentry =>
    .of_isSignificant (hp entry hentry) (p.significant entry hentry)
  have hrestates := restates_canonical hp
  exact (parse_eq_ok_iff_of_derives (derives_canonicalTerms hwritable) p).mpr
    ⟨hrestates.staysFinite hp, (hrestates.ofCoefficients_totals hp).symm⟩

/-- **The canonical form is read back**, for every polynomial with finite coefficients, and so for
every polynomial that is read from any text. The reduced form of a solved equation is this form, so
it leads to the same solutions. -/
theorem parse_canonical {p : Polynomial}
    (h : p.HasFiniteCoefficients ∨ ∃ source, parse source = .ok p) :
    parse p.canonical = .ok p ∧ (parse p.solve.reducedForm).map Polynomial.solve = .ok p.solve := by
  have hp : p.HasFiniteCoefficients := by
    rcases h with h | ⟨source, hsource⟩
    · exact h
    · exact hasFiniteCoefficients_of_parse hsource
  have hparse := parse_canonical_of_hasFiniteCoefficients hp
  refine ⟨hparse, ?_⟩
  show (parse p.canonical).map Polynomial.solve = .ok p.solve
  rw [hparse]
  rfl

/-- A coefficient that is no short binary fraction and one of three hundred digits, at the greatest
power, are read back. -/
theorem parse_canonical_greatest_power :
    ∃ p : Polynomial, p.coefficients.entries = [(Power.zero, -0.1), (4294967295, 1e300)] ∧
      parse p.canonical = .ok p ∧
      (parse p.solve.reducedForm).map Polynomial.solve = .ok p.solve := by
  have hentries : (Polynomial.ofCoefficients (.ofList [(Power.zero, -0.1),
      (4294967295, 1e300)])).coefficients.entries =
        [(Power.zero, -0.1), (4294967295, 1e300)] := by decide +kernel
  refine ⟨_, hentries, parse_canonical (.inl ?_)⟩
  intro entry hentry
  rw [hentries] at hentry
  revert entry
  decide +kernel

end Equation

end Quadra
