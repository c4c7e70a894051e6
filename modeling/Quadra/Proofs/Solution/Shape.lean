import Quadra.Proofs.Polynomial.Degree
import Quadra.Proofs.Solution.Cases

set_option autoImplicit false

/-!
# The shape of a solved equation

What is solved is well formed, whatever the coefficients are: the degree and the coefficients decide the
kind, the kind decides how many solutions there are and what is known of them, and none of the divisors
is a zero.
-/

namespace Quadra

open Numeric Binary64

/-! ## Kinds -/

/-- The kinds of a quadratic equation. -/
def SolutionKind.IsDiscriminant (kind : SolutionKind) : Prop :=
  kind = .positiveDiscriminant ∨ kind = .zeroDiscriminant ∨ kind = .negativeDiscriminant

/-- The solutions that an equation of each kind has: of two real ones the same is known, complex ones
are conjugate, and the one whose imaginary part is not negative is first. -/
def SolutionKind.Shape : SolutionKind → List Solution → Prop
  | .positiveDiscriminant, solutions =>
      ∃ x₁ x₂ rational, solutions = [.real ⟨x₁, rational⟩, .real ⟨x₂, rational⟩]
  | .zeroDiscriminant, solutions => ∃ x, solutions = [.real ⟨x, true⟩]
  | .negativeDiscriminant, solutions =>
      ∃ re im rational, ¬ im < 0 ∧
        solutions = [.complex ⟨re, true⟩ ⟨im, rational⟩, .complex ⟨re, true⟩ ⟨-im, rational⟩]
  | .linear, solutions => ∃ x, solutions = [.real ⟨x, true⟩]
  | .unsupported, solutions => solutions = []
  | .noSolution, solutions => solutions = []
  | .infiniteSolutions, solutions => solutions = []

namespace Polynomial

variable (p : Polynomial)

/-- The kind by the degree, and for degree zero by whether there is a constant. -/
theorem kind_cases :
    (p.degree = .zero ∧
        (p.coefficients.entries.map (·.1) = [.zero] ∧ p.analysis.kind = .noSolution ∨
          p.coefficients.entries = [] ∧ p.analysis.kind = .infiniteSolutions)) ∨
      (p.degree = .one ∧ p.analysis.kind = .linear) ∨
      (p.degree = .two ∧ p.analysis.kind.IsDiscriminant) ∨
      (2 < p.degree.val ∧ p.analysis.kind = .unsupported) := by
  rcases p.degree_eq_or with h | h | h | h
  · refine Or.inl ⟨h, ?_⟩
    rw [analysis_of_degree_zero h]
    -- the constant is stored exactly when it is significant
    rcases p.entries_of_degree_eq_zero h with ⟨hentries, hnone⟩ | ⟨hentries, hsome⟩ <;>
      rcases p.lowCoefficients.constant_cases with ⟨hc, hkind⟩ | ⟨hc, hkind⟩
    · exact absurd (hc.symm.trans hnone) Bool.false_ne_true.symm
    · exact Or.inr ⟨hentries, hkind⟩
    · exact Or.inl ⟨by rw [hentries]; rfl, hkind⟩
    · exact absurd (hc.symm.trans hsome) Bool.false_ne_true
  · refine Or.inr (Or.inl ⟨h, ?_⟩)
    rw [analysis_of_degree_one h]
    rfl
  · refine Or.inr (Or.inr (Or.inl ⟨h, ?_⟩))
    rw [analysis_of_degree_two h]
    rcases p.lowCoefficients.quadratic_cases with ⟨-, hkind, -⟩ | ⟨-, -, hkind, -⟩ | ⟨-, -, hkind, -⟩
    · exact Or.inl hkind
    · exact Or.inr (Or.inl hkind)
    · exact Or.inr (Or.inr hkind)
  · refine Or.inr (Or.inr (Or.inr ⟨h, ?_⟩))
    rw [analysis_of_two_lt h]
    rfl

/-- Without coefficients, and with a constant only, the degree is zero. -/
theorem degree_eq_zero_of_powers
    (h : p.coefficients.entries.map (·.1) = [.zero] ∨ p.coefficients.entries = []) :
    p.degree = .zero := by
  rcases h with h | h
  · rw [degree_eq_getLast?, ← List.getLast?_map, h]
    rfl
  · rw [degree_eq_getLast?, h]
    rfl

/-! ## Solutions -/

theorem not_abs_lt_zero (x : Binary64) : ¬ abs x < 0 := by
  rcases x with _ | s | ⟨s, m, e, h⟩
  · exact not_nan_lt 0
  · cases s <;> decide +kernel
  · rw [lt_zero_iff (isFinite_abs rfl), value_abs rfl]
    exact not_lt.mpr (abs_nonneg _)

theorem analysis_shape : p.analysis.kind.Shape p.analysis.solutions := by
  rcases p.degree_eq_or with h | h | h | h
  · rw [analysis_of_degree_zero h, Coefficients.constant_solutions]
    rcases p.lowCoefficients.constant_cases with ⟨-, hkind⟩ | ⟨-, hkind⟩ <;>
      · rw [hkind]
        rfl
  · rw [analysis_of_degree_one h]
    exact ⟨_, rfl⟩
  · rw [analysis_of_degree_two h]
    rcases p.lowCoefficients.quadratic_cases with
      ⟨-, hkind, hsolutions⟩ | ⟨-, -, hkind, hsolutions⟩ | ⟨-, -, hkind, hsolutions⟩
    · rw [hkind, hsolutions]
      exact ⟨_, _, _, rfl⟩
    · rw [hkind, hsolutions]
      exact ⟨_, rfl⟩
    · rw [hkind, hsolutions]
      exact ⟨_, _, _, not_abs_lt_zero _, rfl⟩
  · rw [analysis_of_two_lt h]
    rfl

theorem analysis_discriminant_isSome_iff :
    p.analysis.discriminant.isSome = true ↔ p.degree = .two := by
  rcases p.degree_eq_or with h | h | h | h
  · rw [analysis_of_degree_zero h, h, Coefficients.constant_discriminant]
    decide
  · rw [analysis_of_degree_one h, h]
    exact iff_of_false Bool.false_ne_true (by decide)
  · rw [analysis_of_degree_two h, Coefficients.quadratic_discriminant]
    exact iff_of_true rfl h
  · rw [analysis_of_two_lt h]
    refine iff_of_false Bool.false_ne_true fun htwo => ?_
    rw [htwo] at h
    exact absurd h (by decide)

variable {p}

theorem discriminant_eq_some {d : Binary64} (h : p.analysis.discriminant = some d) :
    p.degree = .two ∧ d = p.lowCoefficients.discriminant := by
  have hdegree := p.analysis_discriminant_isSome_iff.mp (by rw [h]; rfl)
  rw [analysis_of_degree_two hdegree, Coefficients.quadratic_discriminant] at h
  exact ⟨hdegree, (Option.some.inj h).symm⟩

/-! ## Divisors -/

/-- The square root of a positive discriminant is found without division by zero. -/
theorem not_isZero_guess_of_positive {d : Binary64} (h : p.analysis.discriminant = some d)
    (hkind : p.analysis.kind = .positiveDiscriminant) (k : Nat) : (guess d k).isZero = false := by
  obtain ⟨hdegree, rfl⟩ := discriminant_eq_some h
  rw [analysis_of_degree_two hdegree] at hkind
  rcases p.lowCoefficients.quadratic_cases with ⟨hpos, -, -⟩ | ⟨-, -, hkind', -⟩ | ⟨-, -, hkind', -⟩
  · exact not_isZero_guess hpos k
  · exact absurd (hkind.symm.trans hkind') (by decide)
  · exact absurd (hkind.symm.trans hkind') (by decide)

/-- So is that of the opposite of a negative one, and of `nan`, which counts as negative. -/
theorem not_isZero_guess_of_negative {d : Binary64} (h : p.analysis.discriminant = some d)
    (hkind : p.analysis.kind = .negativeDiscriminant) (k : Nat) : (guess (-d) k).isZero = false := by
  obtain ⟨hdegree, rfl⟩ := discriminant_eq_some h
  rw [analysis_of_degree_two hdegree] at hkind
  rcases p.lowCoefficients.quadratic_cases with
    ⟨-, hkind', -⟩ | ⟨-, -, hkind', -⟩ | ⟨hpos, hzero, -, -⟩
  · exact absurd (hkind.symm.trans hkind') (by decide)
  · exact absurd (hkind.symm.trans hkind') (by decide)
  · rcases hnan : p.lowCoefficients.discriminant.isNaN with _ | _
    · exact not_isZero_guess (Coefficients.epsilon_lt_opposite hnan hpos hzero) k
    · rw [eq_nan_of_isNaN hnan, neg_nan, guess_nan]
      rfl

end Polynomial

/-- What holds of the solved equation of every polynomial. -/
structure Resolution.WellFormed (p : Polynomial) (r : Resolution) : Prop where
  degree_eq : r.degree = p.degree
  degree_eq_greatestPower : (r.degree.val : Int) =
    if p.greatestPower.isFinite then p.greatestPower.toRange 0 4294967295 else 0
  coefficients_eq : r.coefficients = p.lowCoefficients
  unsupported_iff : r.kind = .unsupported ↔ 2 < r.degree.val
  isDiscriminant_iff : r.kind.IsDiscriminant ↔ r.degree = .two
  linear_iff : r.kind = .linear ↔ r.degree = .one
  noSolution_iff : r.kind = .noSolution ↔ p.coefficients.entries.map (·.1) = [.zero]
  infiniteSolutions_iff : r.kind = .infiniteSolutions ↔ p.coefficients.entries = []
  discriminant_isSome_iff : r.discriminant.isSome = true ↔ r.degree = .two
  shape : r.kind.Shape r.solutions
  quadratic_divisor :
    r.degree = .two → epsilon < abs r.coefficients.a ∧ (2 * r.coefficients.a).isZero = false
  linear_divisor : r.degree = .one → epsilon < abs r.coefficients.b ∧ r.coefficients.b.isZero = false
  positive_guess : ∀ d, r.discriminant = some d → r.kind = .positiveDiscriminant →
    ∀ k, (guess d k).isZero = false
  negative_guess : ∀ d, r.discriminant = some d → r.kind = .negativeDiscriminant →
    ∀ k, (guess (-d) k).isZero = false

/-- **Solved equations are well formed.** The kind tells the degree and whether there are coefficients,
there is a discriminant for degree two only, the solutions have the shape of the kind, and no divisor is
a zero: neither the leading coefficient, nor its double, nor a guess at a square root. -/
theorem Polynomial.solve_wellFormed (p : Polynomial) : p.solve.WellFormed p := by
  have hempty := p.degree_eq_zero_of_powers
  have hkind := p.kind_cases
  -- the kinds exclude each other, and so do the conditions on the degree and the coefficients
  refine
    { degree_eq := rfl
      degree_eq_greatestPower := p.degree_eq_greatestPower
      coefficients_eq := rfl
      unsupported_iff := show p.analysis.kind = _ ↔ 2 < p.degree.val from ?_
      isDiscriminant_iff := show p.analysis.kind.IsDiscriminant ↔ p.degree = _ from ?_
      linear_iff := show p.analysis.kind = _ ↔ p.degree = _ from ?_
      noSolution_iff := show p.analysis.kind = _ ↔ _ from ?_
      infiniteSolutions_iff := show p.analysis.kind = _ ↔ _ from ?_
      discriminant_isSome_iff := p.analysis_discriminant_isSome_iff
      shape := p.analysis_shape
      quadratic_divisor := fun h => ⟨of_decide_eq_true (isSignificant_a h),
        Coefficients.not_isZero_two_mul (isSignificant_a h)⟩
      linear_divisor := fun h => ⟨of_decide_eq_true (isSignificant_b h),
        not_isZero_of_isSignificant (isSignificant_b h)⟩
      positive_guess := fun _ => not_isZero_guess_of_positive
      negative_guess := fun _ => not_isZero_guess_of_negative }
  all_goals grind [Power.zero, Power.one, Power.two, SolutionKind.IsDiscriminant]

end Quadra
