import Quadra.Proofs.Equation.RoundTrip
import Quadra.Proofs.Solution.Cases

set_option autoImplicit false

/-!
# Discriminants beyond the greatest number

The coefficients that are read are finite, but the discriminant of finite coefficients may overflow. Then
it is infinite or `nan`, and so is its square root: an infinite one gives roots that are `nan`, and one
that is `nan` counts as negative. An equation whose discriminant does not overflow is solved in numbers.
-/

namespace Quadra

open Numeric Binary64

/-! ## The range of the discriminant -/

/-- None of the four operations of the discriminant overflows. The operands are the rounded results of
the operations before. -/
structure Coefficients.DiscriminantInRange (k : Coefficients) : Prop where
  quadruple : |4 * k.a.value| < overflowBound
  square : |k.b.value * k.b.value| < overflowBound
  product : |(4 * k.a).value * k.c.value| < overflowBound
  difference : |(k.b * k.b).value - (4 * k.a * k.c).value| < overflowBound

namespace Coefficients

variable {k : Coefficients} (ha : k.a.isFinite = true) (hb : k.b.isFinite = true)
  (hc : k.c.isFinite = true)

include ha hb hc

/-- The discriminant is finite exactly when no operation overflows. -/
theorem isFinite_discriminant_iff : k.discriminant.isFinite = true ↔ k.DiscriminantInRange := by
  have hquadruple := isFinite_mul_iff isFinite_four ha
  have hsquare := isFinite_mul_iff hb hb
  rw [value_four] at hquadruple
  constructor
  · intro h
    obtain ⟨hbb, hac⟩ := isFinite_of_isFinite_sub h
    have h4a := (isFinite_of_isFinite_mul hac).1
    exact ⟨hquadruple.mp h4a, hsquare.mp hbb, (isFinite_mul_iff h4a hc).mp hac,
      (isFinite_sub_iff hbb hac).mp h⟩
  · intro h
    have h4a := hquadruple.mpr h.quadruple
    have hac := (isFinite_mul_iff h4a hc).mpr h.product
    exact (isFinite_sub_iff (hsquare.mpr h.square) hac).mpr h.difference

end Coefficients

/-! ## Solutions in numbers -/

/-- The numbers that a solution reports. -/
def Solution.numbers : Solution → List Binary64
  | .real root => [root.value]
  | .complex re im => [re.value, im.value]

/-- A quadratic equation is solved in numbers: its discriminant is a number, which decides the kind,
and so are all parts of its solutions. -/
structure Resolution.InNumbers (r : Resolution) (d : Binary64) : Prop where
  discriminant_eq : r.discriminant = some d
  not_isNaN : d.isNaN = false
  positive_iff : r.kind = .positiveDiscriminant ↔ epsilon < d
  zero_iff : r.kind = .zeroDiscriminant ↔ -epsilon ≤ d ∧ d ≤ epsilon
  negative_iff : r.kind = .negativeDiscriminant ↔ d < -epsilon
  solutions : ∀ solution ∈ r.solutions, ∀ x ∈ solution.numbers, x.isNaN = false

namespace Coefficients

variable (k : Coefficients)

/-- A finite discriminant decides the kind. -/
theorem kind_iff (h : k.discriminant.isFinite = true) :
    (k.quadratic.kind = .positiveDiscriminant ↔ epsilon < k.discriminant) ∧
      (k.quadratic.kind = .zeroDiscriminant ↔
        -epsilon ≤ k.discriminant ∧ k.discriminant ≤ epsilon) ∧
      (k.quadratic.kind = .negativeDiscriminant ↔ k.discriminant < -epsilon) := by
  have hneg : (-epsilon).isFinite = true := (isFinite_opposite _).trans isFinite_epsilon
  have hcases := k.quadratic_cases
  have hpos := epsilon_bounds.1
  rw [lt_iff_value_lt isFinite_epsilon h, le_iff_value_le hneg h, value_opposite] at hcases
  rw [lt_iff_value_lt isFinite_epsilon h, le_iff_value_le hneg h, le_iff_value_le h isFinite_epsilon,
    lt_iff_value_lt h hneg, value_opposite]
  rcases hcases with ⟨hd, hkind, -⟩ | ⟨hd, hd', hkind, -⟩ | ⟨hd, hd', hkind, -⟩ <;> rw [hkind]
  · exact ⟨iff_of_true rfl hd, iff_of_false (by decide) fun h' => absurd h'.2 (not_le.mpr hd),
      iff_of_false (by decide) (by linarith)⟩
  · exact ⟨iff_of_false (by decide) hd, iff_of_true rfl ⟨hd', not_lt.mp hd⟩,
      iff_of_false (by decide) (not_lt.mpr hd')⟩
  · exact ⟨iff_of_false (by decide) hd, iff_of_false (by decide) fun h' => hd' h'.1,
      iff_of_true rfl (not_le.mp hd')⟩

variable {k}

/-- The solutions are numbers when the discriminant is finite. -/
theorem not_isNaN_solutions (hb : k.b.isFinite = true) (ha : (2 * k.a).isFinite = true)
    (hzero : (2 * k.a).isZero = false) (hd : k.discriminant.isFinite = true) :
    ∀ solution ∈ k.quadratic.solutions, ∀ x ∈ solution.numbers, x.isNaN = false := by
  have hb' : (-k.b).isFinite = true := (isFinite_opposite _).trans hb
  have hquotient : (-k.b / (2 * k.a)).isNaN = false :=
    not_isNaN_div (not_isNaN_of_isFinite hb') ha hzero
  rcases k.quadratic_cases with
    ⟨hpos, -, hsolutions⟩ | ⟨-, -, -, hsolutions⟩ | ⟨hpos, hneg, -, hsolutions⟩ <;>
    rw [hsolutions]
  · -- the square root is a number, and so are its sums with a finite number
    have hroot := not_isNaN_sqrt hd hpos
    have hfirst := not_isNaN_div (not_isNaN_add hb' hroot) ha hzero
    have hsecond := not_isNaN_div (not_isNaN_add hb' (not_isNaN_neg hroot)) ha hzero
    simp only [realPair, List.forall_mem_cons, Solution.numbers, List.not_mem_nil, false_imp_iff,
      implies_true, and_true]
    exact ⟨hfirst, hsecond⟩
  · simp only [doubleRoot, List.forall_mem_cons, Solution.numbers, List.not_mem_nil, false_imp_iff,
      implies_true, and_true]
    exact hquotient
  · have hopposite := epsilon_lt_opposite (not_isNaN_of_isFinite hd) hpos hneg
    have hroot := not_isNaN_sqrt ((isFinite_opposite _).trans hd) hopposite
    have him : (abs (sqrt (-k.discriminant) / (2 * k.a))).isNaN = false :=
      not_isNaN_abs (not_isNaN_div hroot ha hzero)
    simp only [conjugatePair, List.forall_mem_cons, Solution.numbers, List.not_mem_nil,
      false_imp_iff, implies_true, and_true]
    exact ⟨⟨hquotient, him⟩, hquotient, not_isNaN_neg him⟩

/-- An infinite discriminant has a square root that is `nan`, and so is a part of a solution. -/
theorem exists_isNaN_of_infinite {negative : Bool} (hd : k.discriminant = infinite negative) :
    ∃ solution ∈ k.quadratic.solutions, ∃ x ∈ solution.numbers, x.isNaN = true := by
  have hcases := k.quadratic_cases
  rw [hd] at hcases
  cases negative with
  | false =>
      rcases hcases with ⟨-, -, hsolutions⟩ | ⟨hpos, -⟩ | ⟨hpos, -⟩
      · rw [hsolutions]
        refine ⟨_, List.mem_cons_self, _, List.mem_singleton_self _, ?_⟩
        show ((-k.b + sqrt (infinite false)) / (2 * k.a)).isNaN = true
        rw [sqrt_infinite, add_nan]
        rfl
      · exact absurd (by decide +kernel) hpos
      · exact absurd (by decide +kernel) hpos
  | true =>
      rcases hcases with ⟨hpos, -⟩ | ⟨-, hzero, -⟩ | ⟨-, -, -, hsolutions⟩
      · exact absurd hpos (by decide +kernel)
      · exact absurd hzero (by decide +kernel)
      · rw [hsolutions]
        refine ⟨_, List.mem_cons_self, _, List.mem_cons_of_mem _ (List.mem_singleton_self _), ?_⟩
        show (abs (sqrt (infinite false) / (2 * k.a))).isNaN = true
        rw [sqrt_infinite]
        rfl

end Coefficients

namespace Equation

/-- The coefficients that are read are finite, also where none is stored. -/
theorem isFinite_coefficient_of_parse {source : String} {p : Polynomial}
    (h : parse source = .ok p) (n : Power) : (p.coefficient n).isFinite = true :=
  (hasFiniteCoefficients_of_parse h).isFinite_coefficient n

/-- **An accepted quadratic equation is solved in numbers exactly when its discriminant does not
overflow.** -/
theorem solve_inNumbers_iff {source : String} {p : Polynomial} (h : parse source = .ok p)
    (hdegree : p.degree = .two) :
    (∃ d, p.solve.InNumbers d) ↔ p.lowCoefficients.DiscriminantInRange := by
  have ha : p.lowCoefficients.a.isFinite = true := isFinite_coefficient_of_parse h .two
  have hb : p.lowCoefficients.b.isFinite = true := isFinite_coefficient_of_parse h .one
  have hc : p.lowCoefficients.c.isFinite = true := isFinite_coefficient_of_parse h .zero
  have hdiscriminant : p.solve.discriminant = some p.lowCoefficients.discriminant := by
    rw [← Coefficients.quadratic_discriminant, ← Polynomial.analysis_of_degree_two hdegree]
    rfl
  have hkind : p.solve.kind = p.lowCoefficients.quadratic.kind := by
    rw [← Polynomial.analysis_of_degree_two hdegree]
    rfl
  have hsolutions : p.solve.solutions = p.lowCoefficients.quadratic.solutions := by
    rw [← Polynomial.analysis_of_degree_two hdegree]
    rfl
  constructor
  · rintro ⟨d, hd⟩
    obtain rfl : p.lowCoefficients.discriminant = d :=
      Option.some.inj (hdiscriminant.symm.trans hd.discriminant_eq)
    rw [← Coefficients.isFinite_discriminant_iff ha hb hc]
    rcases hvalue : p.lowCoefficients.discriminant with _ | negative | ⟨_, _, _, _⟩
    · have hnan := hd.not_isNaN
      rw [hvalue] at hnan
      cases hnan
    · obtain ⟨solution, hsolution, x, hx, hnan⟩ := Coefficients.exists_isNaN_of_infinite hvalue
      have hnumber := hd.solutions solution (hsolutions ▸ hsolution) x hx
      exact absurd (hnan.symm.trans hnumber) (by decide)
    · rfl
  · intro hrange
    have hfinite := (Coefficients.isFinite_discriminant_iff ha hb hc).mpr hrange
    obtain ⟨hpositive, hzero, hnegative⟩ := p.lowCoefficients.kind_iff hfinite
    have hdouble : (2 * p.lowCoefficients.a).isFinite = true := by
      refine (isFinite_mul_iff isFinite_two ha).mpr (lt_of_le_of_lt ?_ hrange.quadruple)
      rw [value_two, abs_mul, abs_mul]
      exact mul_le_mul_of_nonneg_right (by norm_num) (abs_nonneg _)
    exact ⟨_, hdiscriminant, not_isNaN_of_isFinite hfinite, hkind ▸ hpositive, hkind ▸ hzero,
      hkind ▸ hnegative, hsolutions ▸ Coefficients.not_isNaN_solutions hb hdouble
        (Coefficients.not_isZero_two_mul (Polynomial.isSignificant_a hdegree)) hfinite⟩

/-- The discriminant of `X^2=1` is far from an overflow, so the equation is solved in numbers. -/
theorem solve_inNumbers_square :
    ∃ p, parse "X^2=1" = .ok p ∧ p.degree = .two ∧ ∃ d, p.solve.InNumbers d := by
  have hparse : parse "X^2=1" = .ok (.ofCoefficients (.ofList [(.zero, -1), (.two, 1)])) := by
    decide +kernel
  have hdegree : (Polynomial.ofCoefficients (.ofList [(.zero, -1), (.two, 1)])).degree = .two := by
    decide +kernel
  refine ⟨_, hparse, hdegree, (solve_inNumbers_iff hparse hdegree).mpr ?_⟩
  exact (Coefficients.isFinite_discriminant_iff (by decide +kernel) (by decide +kernel)
    (by decide +kernel)).mp (by decide +kernel)

theorem parse_ofList (cs : List Char) : parse (.ofList cs) =
    (reduce cs ((scanFrom 0 cs).filter fun token => token.kind != .finish)).outcome := by
  rw [parse, read, scan, String.toList_ofList]

/-- With a leading coefficient of `10 ^ 308` the product `4 * a` is infinite, and times an absent constant
it is `nan`: the equation whose only root is zero gets a conjugate pair of `nan`. -/
theorem solve_great_square :
    (parse (.ofList ('1' :: (List.replicate 308 '0' ++ ['X', '^', '2', '=', '0'])))).map
        (fun p => (p.degree, p.solve.discriminant, p.solve.kind,
          p.solve.solutions.map Solution.numbers)) =
      .ok (.two, some .nan, .negativeDiscriminant, [[.zero true, .nan], [.zero true, .nan]]) := by
  rw [parse_ofList]
  decide +kernel

end Equation

end Quadra
