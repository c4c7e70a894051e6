import Quadra.Proofs.Binary64.Symmetry
import Quadra.Proofs.Numeric.Range
import Quadra.Solution.Solve

set_option autoImplicit false

/-!
# The cases of the solver

The degree selects the analysis, and for degree two the discriminant selects the kind. A case is known
once and for all by its kind, its discriminant and its solutions; the explanation plays no part.
-/

namespace Quadra

open Numeric Binary64

/-! ## Degrees -/

namespace Polynomial

variable {p : Polynomial}

theorem degree_eq_or (p : Polynomial) :
    p.degree = .zero ∨ p.degree = .one ∨ p.degree = .two ∨ 2 < p.degree.val := by
  rcases p.degree with ⟨_ | _ | _ | n, h⟩
  · exact Or.inl rfl
  · exact Or.inr (Or.inl rfl)
  · exact Or.inr (Or.inr (Or.inl rfl))
  · exact Or.inr (Or.inr (Or.inr (by simp)))

theorem analysis_of_degree_zero (h : p.degree = .zero) : p.analysis = p.lowCoefficients.constant := by
  rw [analysis, h]
  rfl

theorem analysis_of_degree_one (h : p.degree = .one) : p.analysis = p.lowCoefficients.linear := by
  rw [analysis, h]
  rfl

theorem analysis_of_degree_two (h : p.degree = .two) : p.analysis = p.lowCoefficients.quadratic := by
  rw [analysis, h]
  rfl

theorem analysis_of_two_lt (h : 2 < p.degree.val) : p.analysis = .unsupported := by
  rw [analysis]
  split
  · omega
  · omega
  · omega
  · rfl

/-- The coefficient of the power two is stored where the degree is two. -/
theorem isSignificant_a (h : p.degree = .two) : isSignificant p.lowCoefficients.a = true := by
  have hdegree := p.isSignificant_degree (by rw [h]; decide)
  rwa [h] at hdegree

theorem isSignificant_b (h : p.degree = .one) : isSignificant p.lowCoefficients.b = true := by
  have hdegree := p.isSignificant_degree (by rw [h]; decide)
  rwa [h] at hdegree

end Polynomial

namespace Coefficients

variable (k : Coefficients)

/-! ## Constants -/

theorem constant_cases :
    (isSignificant k.c = true ∧ k.constant.kind = .noSolution) ∨
      (isSignificant k.c = false ∧ k.constant.kind = .infiniteSolutions) := by
  rw [constant]
  cases h : isSignificant k.c with
  | true => exact Or.inl ⟨rfl, rfl⟩
  | false => exact Or.inr ⟨rfl, rfl⟩

theorem constant_discriminant : k.constant.discriminant = none := by
  rw [constant]
  split <;> rfl

theorem constant_solutions : k.constant.solutions = [] := by
  rw [constant]
  split <;> rfl

/-! ## Discriminants -/

theorem quadratic_discriminant : k.quadratic.discriminant = some k.discriminant := by
  rw [quadratic]
  dsimp only
  split
  · rfl
  · split <;> rfl

/-- A quadratic equation falls in one of three cases, in this order. -/
theorem quadratic_cases :
    (epsilon < k.discriminant ∧ k.quadratic.kind = .positiveDiscriminant ∧
        k.quadratic.solutions = (k.realPair k.discriminant).solutions) ∨
      (¬ epsilon < k.discriminant ∧ -epsilon ≤ k.discriminant ∧
        k.quadratic.kind = .zeroDiscriminant ∧
        k.quadratic.solutions = (k.doubleRoot k.discriminant).solutions) ∨
      (¬ epsilon < k.discriminant ∧ ¬ -epsilon ≤ k.discriminant ∧
        k.quadratic.kind = .negativeDiscriminant ∧
        k.quadratic.solutions = (k.conjugatePair k.discriminant).solutions) := by
  by_cases hpos : epsilon < k.discriminant
  · exact Or.inl ⟨hpos, by rw [quadratic, if_pos hpos]; rfl, by rw [quadratic, if_pos hpos]⟩
  · by_cases hzero : -epsilon ≤ k.discriminant
    · exact Or.inr (Or.inl ⟨hpos, hzero, by rw [quadratic, if_neg hpos, if_pos hzero]; rfl,
        by rw [quadratic, if_neg hpos, if_pos hzero]⟩)
    · exact Or.inr (Or.inr ⟨hpos, hzero, by rw [quadratic, if_neg hpos, if_neg hzero]; rfl,
        by rw [quadratic, if_neg hpos, if_neg hzero]⟩)

/-- A discriminant in the third case has an opposite above `epsilon`, unless it is `nan`. -/
theorem epsilon_lt_opposite {x : Binary64} (hnan : x.isNaN = false) (hpos : ¬ epsilon < x)
    (hzero : ¬ -epsilon ≤ x) : epsilon < -x := by
  rcases x with _ | s | ⟨s, m, e, h⟩
  · cases hnan
  · cases s
    · exact absurd (by decide +kernel) hpos
    · decide +kernel
  · rw [le_iff_value_le ((isFinite_opposite _).trans isFinite_epsilon) rfl, value_opposite,
      not_le] at hzero
    rw [lt_iff_value_lt isFinite_epsilon rfl, value_opposite]
    linarith

/-! ## Divisors -/

/-- Twice a significant coefficient is not a zero. -/
theorem not_isZero_two_mul {c : Binary64} (h : isSignificant c = true) : (2 * c).isZero = false := by
  rcases hproduct : (2 * c).isFinite with _ | _
  · exact not_isZero_of_isFinite_eq_false hproduct
  · have hfinite : c.isFinite = true := by
      rcases c with _ | s | ⟨_, _, _, _⟩
      · exact absurd hproduct (by decide +kernel)
      · cases s <;> exact absurd hproduct (by decide +kernel)
      · rfl
    have hrounds := rounds_mul isFinite_two hfinite ((isFinite_mul_iff isFinite_two hfinite).mp hproduct)
    rw [value_two] at hrounds
    have hne : c.value ≠ 0 := by
      rw [ne_eq, ← isZero_iff hfinite, not_isZero_of_isSignificant h]
      exact Bool.false_ne_true
    rw [← Bool.not_eq_true, isZero_iff hproduct]
    -- rounding does not pass the coefficient itself
    rcases lt_or_gt_of_ne hne with hneg | hpos
    · exact (lt_of_le_of_lt (hrounds.le_of_le hfinite (by linarith)) hneg).ne
    · exact (lt_of_lt_of_le hpos (hrounds.ge_of_ge hfinite (by linarith))).ne'

end Coefficients

end Quadra
