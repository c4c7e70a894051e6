import Quadra.Proofs.Solution.Cases

set_option autoImplicit false

/-!
# Opposite equations

An equation multiplied by minus one has the same solutions. Its coefficients are opposite, except that
one that is not stored is a positive zero in both, so the numbers of the two runs are opposite or equal
up to the sign of a zero, which no text shows.
-/

namespace Quadra

open Numeric Binary64

/-! ## Polynomials -/

/-- The map with a function applied to all values. -/
def PowerMap.mapValues {α β : Type} (f : α → β) (map : PowerMap α) : PowerMap β :=
  ⟨map.entries.map fun entry => (entry.1, f entry.2), List.pairwise_map.mpr map.ascending⟩

theorem PowerMap.find?_mapValues {α β : Type} (f : α → β) (map : PowerMap α) (n : Power) :
    (map.mapValues f).find? n = (map.find? n).map f := by
  rw [find?_eq_findEntry, find?_eq_findEntry, mapValues]
  dsimp only
  induction map.entries with
  | nil => rfl
  | cons entry rest ih =>
      rw [List.map_cons, findEntry, findEntry, ih]
      split <;> rfl

/-- The polynomial with all coefficients negated. -/
def Polynomial.opposite (p : Polynomial) : Polynomial :=
  .ofCoefficients (p.coefficients.mapValues (-·))

theorem isSignificant_eq_of_alike {c c' : Binary64} (h : Alike c' (-c)) :
    isSignificant c' = isSignificant c := by
  rw [isSignificant, isSignificant]
  exact decide_eq_decide.mpr (((alike_abs h).trans (alike_abs_opposite c)).gt_iff epsilon)

namespace Polynomial

variable (p : Polynomial)

/-- No coefficient is lost. -/
theorem coefficients_opposite : p.opposite.coefficients = p.coefficients.mapValues (-·) := by
  refine PowerMap.ext_find? fun n => ?_
  rw [opposite, ofCoefficients, PowerMap.find?_filter, PowerMap.find?_mapValues]
  rcases hfind : p.coefficients.find? n with _ | c
  · rfl
  · have hsignificant := p.significant (n, c) ((p.coefficients.mem_entries_iff n c).mpr hfind)
    exact if_pos ((isSignificant_eq_of_alike (.refl (-c))).trans hsignificant)

theorem degree_opposite : p.opposite.degree = p.degree := by
  rw [degree_eq_getLast?, degree_eq_getLast?, coefficients_opposite, PowerMap.mapValues,
    List.getLast?_map, Option.map_map]
  rfl

/-- A coefficient that is not stored is a positive zero in both polynomials. -/
theorem coefficient_opposite (n : Power) :
    Alike (p.opposite.coefficient n) (-p.coefficient n) := by
  rw [coefficient, coefficients_opposite, PowerMap.find?_mapValues, coefficient]
  cases p.coefficients.find? n with
  | some c => exact .refl _
  | none =>
      show Alike 0 (-0)
      rw [ofNat_zero]
      exact .zeros _ _

theorem coefficient_opposite_of_isSignificant {n : Power} (h : isSignificant (p.coefficient n) = true) :
    p.opposite.coefficient n = -p.coefficient n := by
  refine (p.coefficient_opposite n).eq_of_not_isZero ?_
  rw [isZero_neg]
  exact not_isZero_of_isSignificant h

end Polynomial

/-! ## Texts -/

theorem Binary64.Alike.add_zero_eq {x y : Binary64} (h : Alike x y) : x + zero false = y + zero false := by
  cases h with
  | refl => rfl
  | zeros s s' => cases s <;> cases s' <;> decide +kernel

theorem display_eq_of_alike {x y : Binary64} (h : Alike x y) : x.display = y.display := by
  rw [display, display, h.add_zero_eq]

theorem fixed_eq_of_alike {x y : Binary64} (h : Alike x y) : x.fixed = y.fixed := by
  rw [fixed, fixed, h.add_zero_eq]

theorem ofNumber_eq_of_alike {x y : Binary64} (h : Alike x y) :
    Fraction.ofNumber x = Fraction.ofNumber y := by
  cases h with
  | refl => rfl
  | zeros s s' => cases s <;> cases s' <;> decide +kernel

/-- The text of a root does not show the sign of a zero. -/
theorem Root.text_eq_of_alike {x y : Binary64} (h : Alike x y) (fractions rational : Bool) :
    (⟨x, rational⟩ : Root).text fractions = (⟨y, rational⟩ : Root).text fractions := by
  rw [Root.text, Root.text, display_eq_of_alike h, ofNumber_eq_of_alike h]

theorem Solution.text_complex_eq_of_alike {re re' im im' : Binary64} (hre : Alike re re')
    (him : Alike im im') (fractions rational rational' : Bool) :
    (Solution.complex ⟨re, rational⟩ ⟨im, rational'⟩).text fractions =
      (Solution.complex ⟨re', rational⟩ ⟨im', rational'⟩).text fractions := by
  have hmagnitude := alike_abs him
  rw [text, text]
  simp only [him.lt_iff 0, fixed_eq_of_alike hre, fixed_eq_of_alike hmagnitude,
    Root.text_eq_of_alike hre, Root.text_eq_of_alike hmagnitude]

/-! ## Analyses -/

/-- The solutions of an opposite equation in the order of the equation: the pair of real roots is
reversed. -/
def SolutionKind.inOrder (kind : SolutionKind) {α : Type} (solutions : List α) : List α :=
  if kind = .positiveDiscriminant then solutions.reverse else solutions

/-- Coefficients that are opposite up to the sign of a zero, and exactly so for the power two. -/
structure Coefficients.Opposite (k k' : Coefficients) : Prop where
  a : k'.a = -k.a
  b : Alike k'.b (-k.b)
  c : Alike k'.c (-k.c)

namespace Coefficients

variable {k k' : Coefficients} (h : Opposite k k') (fractions : Bool)

include h

/-- The discriminant is the same number, with the same sign where it is zero. -/
theorem Opposite.discriminant_eq : k'.discriminant = k.discriminant := by
  have hsquare : k'.b * k'.b = k.b * k.b := by rw [h.b.mul_self_eq, opposite_mul_opposite]
  have hproduct : Alike (4 * k'.a * k'.c) (4 * k.a * k.c) := by
    have hfour : 4 * k'.a = -(4 * k.a) := by rw [h.a, opposite_factor]
    have hc := h.c.mul_left (4 * k'.a)
    rwa [hfour, opposite_mul_opposite, ← hfour] at hc
  rw [discriminant, discriminant, hsquare]
  exact sub_eq_of_alike (isNegative_mul_self k.b) hproduct

theorem Opposite.double_eq : 2 * k'.a = -(2 * k.a) := by
  rw [h.a, opposite_factor]

theorem Opposite.quotient : Alike (-k'.b / (2 * k'.a)) (-k.b / (2 * k.a)) := by
  rw [h.double_eq]
  exact h.b.neg.div_opposite_divisor (2 * k.a)

/-- The roots change places. -/
theorem Opposite.realPair_text (d : Binary64) :
    (k'.realPair d).solutions.map (Solution.text fractions) =
      ((k.realPair d).solutions.map (Solution.text fractions)).reverse := by
  have hfirst : Alike ((-k'.b + sqrt d) / (2 * k'.a)) ((-k.b - sqrt d) / (2 * k.a)) := by
    have hsum := alike_opposite_add (-k.b) (-sqrt d)
    rw [opposite_opposite (sqrt d)] at hsum
    rw [h.double_eq]
    exact ((h.b.neg.add (.refl (sqrt d))).trans hsum).div_opposite_divisor (2 * k.a)
  have hsecond : Alike ((-k'.b - sqrt d) / (2 * k'.a)) ((-k.b + sqrt d) / (2 * k.a)) := by
    rw [h.double_eq]
    exact ((h.b.neg.add (.refl (-sqrt d))).trans
      (alike_opposite_add (-k.b) (sqrt d))).div_opposite_divisor (2 * k.a)
  show [(Root.mk _ _).text fractions, (Root.mk _ _).text fractions] = [_, _]
  rw [Root.text_eq_of_alike hfirst, Root.text_eq_of_alike hsecond]
  rfl

theorem Opposite.doubleRoot_text (d : Binary64) :
    (k'.doubleRoot d).solutions.map (Solution.text fractions) =
      (k.doubleRoot d).solutions.map (Solution.text fractions) := by
  show [(Root.mk _ _).text fractions] = [_]
  rw [Root.text_eq_of_alike h.quotient]
  rfl

theorem Opposite.conjugatePair_text (d : Binary64) :
    (k'.conjugatePair d).solutions.map (Solution.text fractions) =
      (k.conjugatePair d).solutions.map (Solution.text fractions) := by
  have him : Alike (abs (sqrt (-d) / (2 * k'.a))) (abs (sqrt (-d) / (2 * k.a))) := by
    rw [h.double_eq, opposite_divisor]
    exact alike_abs_opposite _
  show [(Solution.complex ⟨_, _⟩ ⟨_, _⟩).text fractions, (Solution.complex ⟨_, _⟩ ⟨_, _⟩).text fractions] = [_, _]
  rw [Solution.text_complex_eq_of_alike h.quotient him,
    Solution.text_complex_eq_of_alike h.quotient him.neg]

/-- Opposite quadratic equations have the same kind and the same texts, in the order of the kind. -/
theorem Opposite.quadratic :
    k'.quadratic.kind = k.quadratic.kind ∧
      k'.quadratic.solutions.map (Solution.text fractions) =
        k.quadratic.kind.inOrder (k.quadratic.solutions.map (Solution.text fractions)) := by
  have hcases' := k'.quadratic_cases
  rw [h.discriminant_eq] at hcases'
  rcases k.quadratic_cases with
    ⟨hpos, hkind, hsolutions⟩ | ⟨hpos, hzero, hkind, hsolutions⟩ | ⟨hpos, hzero, hkind, hsolutions⟩ <;>
  rcases hcases' with
    ⟨hpos', hkind', hsolutions'⟩ | ⟨hpos', hzero', hkind', hsolutions'⟩ |
      ⟨hpos', hzero', hkind', hsolutions'⟩
  case inl.inl =>
    rw [hkind, hkind', hsolutions, hsolutions']
    exact ⟨rfl, h.realPair_text fractions _⟩
  case inr.inl.inr.inl =>
    rw [hkind, hkind', hsolutions, hsolutions']
    exact ⟨rfl, h.doubleRoot_text fractions _⟩
  case inr.inr.inr.inr =>
    rw [hkind, hkind', hsolutions, hsolutions']
    exact ⟨rfl, h.conjugatePair_text fractions _⟩
  -- the other pairs of cases differ in the place of the discriminant
  all_goals contradiction

omit h in
/-- So do opposite constants, which have no solutions to show. -/
theorem constant_kind (hc : Alike k'.c (-k.c)) : k'.constant.kind = k.constant.kind := by
  have hsignificant := isSignificant_eq_of_alike hc
  rcases k.constant_cases with ⟨h, hkind⟩ | ⟨h, hkind⟩ <;>
    rcases k'.constant_cases with ⟨h', hkind'⟩ | ⟨h', hkind'⟩ <;>
    rw [h, h'] at hsignificant
  · rw [hkind, hkind']
  · cases hsignificant
  · cases hsignificant
  · rw [hkind, hkind']

omit h in
/-- So do opposite linear equations. -/
theorem linear_text (hb : k'.b = -k.b) (hc : Alike k'.c (-k.c)) :
    k'.linear.solutions.map (Solution.text fractions) =
      k.linear.solutions.map (Solution.text fractions) := by
  have hquotient : Alike (-k'.c / k'.b) (-k.c / k.b) := by
    rw [hb]
    exact hc.neg.div_opposite_divisor k.b
  show [(Root.mk _ _).text fractions] = [_]
  rw [Root.text_eq_of_alike hquotient]
  rfl

end Coefficients

namespace Polynomial

variable (p : Polynomial)

theorem lowCoefficients_opposite (h : p.degree = .two) :
    p.lowCoefficients.Opposite p.opposite.lowCoefficients :=
  ⟨p.coefficient_opposite_of_isSignificant (isSignificant_a h), p.coefficient_opposite .one,
    p.coefficient_opposite .zero⟩

/-- **Multiplying an equation by minus one does not change its solutions.** The degree, the kind and the
discriminant are the same, and so are the texts of the solutions with and without fractions, except that
two real roots change places. -/
theorem solve_opposite :
    p.opposite.solve.degree = p.solve.degree ∧ p.opposite.solve.kind = p.solve.kind ∧
      p.opposite.solve.discriminant = p.solve.discriminant ∧
        ∀ fractions, p.opposite.solve.solutions.map (Solution.text fractions) =
          p.solve.kind.inOrder (p.solve.solutions.map (Solution.text fractions)) := by
  refine ⟨p.degree_opposite, ?_⟩
  show p.opposite.analysis.kind = p.analysis.kind ∧
    p.opposite.analysis.discriminant = p.analysis.discriminant ∧
      ∀ fractions, p.opposite.analysis.solutions.map (Solution.text fractions) =
        p.analysis.kind.inOrder (p.analysis.solutions.map (Solution.text fractions))
  have hdegree := p.degree_opposite
  rcases p.degree_eq_or with h | h | h | h
  · rw [analysis_of_degree_zero h, analysis_of_degree_zero (hdegree.trans h),
      Coefficients.constant_discriminant, Coefficients.constant_discriminant,
      Coefficients.constant_solutions, Coefficients.constant_solutions]
    refine ⟨Coefficients.constant_kind (p.coefficient_opposite .zero), rfl, fun fractions => ?_⟩
    rw [SolutionKind.inOrder]
    split <;> rfl
  · rw [analysis_of_degree_one h, analysis_of_degree_one (hdegree.trans h)]
    exact ⟨rfl, rfl, fun fractions => Coefficients.linear_text fractions
      (p.coefficient_opposite_of_isSignificant (isSignificant_b h)) (p.coefficient_opposite .zero)⟩
  · rw [analysis_of_degree_two h, analysis_of_degree_two (hdegree.trans h),
      Coefficients.quadratic_discriminant, Coefficients.quadratic_discriminant]
    have hopposite := p.lowCoefficients_opposite h
    exact ⟨(hopposite.quadratic false).1, congrArg some hopposite.discriminant_eq,
      fun fractions => (hopposite.quadratic fractions).2⟩
  · rw [analysis_of_two_lt h, analysis_of_two_lt (by rw [hdegree]; exact h)]
    exact ⟨rfl, rfl, fun _ => rfl⟩

end Polynomial

end Quadra
