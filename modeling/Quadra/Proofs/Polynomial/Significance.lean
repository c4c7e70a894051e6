import Quadra.Proofs.Polynomial.Degree
import Quadra.Proofs.Polynomial.PowerMap

set_option autoImplicit false

/-!
# Significant coefficients

A coefficient is stored when its magnitude exceeds `epsilon`: it may be infinite, but it is neither
`nan` nor a zero. The coefficient of the degree is always stored, unless there is none at all.
-/

namespace Quadra

open Binary64 in
theorem epsilon_eq : Numeric.epsilon = finite false 4835703278458517 (-82) (by decide) := by
  decide +kernel

theorem isFinite_epsilon : Numeric.epsilon.isFinite = true := by
  rw [epsilon_eq]
  rfl

open Binary64 in
/-- A finite number is significant when its magnitude exceeds the tolerance. -/
theorem isSignificant_iff {c : Binary64} (hc : c.isFinite = true) :
    isSignificant c = true ↔ Numeric.epsilon.value < |c.value| := by
  rw [isSignificant, decide_eq_true_iff, lt_iff_value_lt isFinite_epsilon (Numeric.isFinite_abs hc),
    Numeric.value_abs hc]

/-- The tolerance is above zero and below one. -/
theorem epsilon_bounds : 0 < Numeric.epsilon.value ∧ Numeric.epsilon.value < 1 := by
  rw [epsilon_eq]
  show (0 : Rat) < 4835703278458517 * 2 ^ (-82 : Int) ∧ 4835703278458517 * 2 ^ (-82 : Int) < (1 : Rat)
  norm_num

/-- The tolerance is one part in a billion as closely as a number can be. -/
theorem epsilon_close : 1 / 1000000000 - 1 / 100000000000000000000 ≤ Numeric.epsilon.value ∧
    Numeric.epsilon.value ≤ 1 / 1000000000 + 1 / 100000000000000000000 := by
  rw [epsilon_eq]
  show (1 / 1000000000 - 1 / 100000000000000000000 : Rat) ≤ 4835703278458517 * 2 ^ (-82 : Int) ∧
    (4835703278458517 * 2 ^ (-82 : Int) : Rat) ≤ 1 / 1000000000 + 1 / 100000000000000000000
  norm_num

/-- It is one part in a billion up to one percent of it. -/
theorem epsilon_near :
    99 / 100000000000 < Numeric.epsilon.value ∧ Numeric.epsilon.value < 101 / 100000000000 := by
  obtain ⟨hlow, hhigh⟩ := epsilon_close
  constructor <;> linarith

/-- An integer is significant unless it is zero. -/
theorem isSignificant_iff_of_integer {c : Binary64} (hc : c.isFinite = true) {k : Int}
    (hk : c.value = k) : isSignificant c = true ↔ k ≠ 0 := by
  obtain ⟨hpos, hone⟩ := epsilon_bounds
  rw [isSignificant_iff hc, hk]
  constructor
  · intro h hzero
    rw [hzero, Int.cast_zero, abs_zero] at h
    exact absurd h (not_lt.mpr hpos.le)
  · -- the tolerance is below the least magnitude of an integer
    intro hne
    have hle : (1 : Rat) ≤ |(k : Rat)| := by exact_mod_cast Int.one_le_abs hne
    exact lt_of_lt_of_le hone hle

theorem isSignificant_zero : isSignificant 0 = false := by
  rw [← Bool.not_eq_true, isSignificant_iff Binary64.isFinite_ofNat_zero,
    Binary64.value_ofNat_zero, abs_zero]
  exact not_lt.mpr epsilon_bounds.1.le

theorem not_isNaN_of_isSignificant {c : Binary64} (h : isSignificant c = true) : c.isNaN = false := by
  rcases c with _ | _ | ⟨_, _, _, _⟩
  · -- `nan` is its own magnitude and not above the tolerance
    exact absurd (of_decide_eq_true h) (Binary64.not_lt_nan _)
  · rfl
  · rfl

theorem not_isZero_of_isSignificant {c : Binary64} (h : isSignificant c = true) :
    c.isZero = false := by
  rcases hc : c.isFinite with _ | _
  · rcases c with _ | _ | ⟨_, _, _, _⟩
    · rfl
    · rfl
    · cases hc
  · rw [← Bool.not_eq_true, Binary64.isZero_iff hc]
    intro hzero
    rw [isSignificant_iff hc, hzero, abs_zero] at h
    exact absurd h (not_lt.mpr epsilon_bounds.1.le)

/-! ## The degree -/

namespace Polynomial

variable (p : Polynomial)

/-- Polynomials with the same coefficient stored at every power are equal. -/
theorem ext_find? {p q : Polynomial} (h : ∀ n, p.coefficients.find? n = q.coefficients.find? n) :
    p = q := by
  have hcoefficients := PowerMap.ext_find? h
  cases p
  cases q
  cases hcoefficients
  rfl

theorem coefficient_eq_of_mem {p : Polynomial} {n : Power} {c : Binary64}
    (h : (n, c) ∈ p.coefficients.entries) : p.coefficient n = c := by
  rw [coefficient, (p.coefficients.mem_entries_iff n c).mp h, Option.getD_some]

/-- A coefficient is stored when it is significant. -/
theorem find?_coefficients (n : Power) :
    p.coefficients.find? n = (some (p.coefficient n)).filter isSignificant := by
  cases hfind : p.coefficients.find? n with
  | none =>
      rw [coefficient, hfind, Option.getD_none, Option.filter_some, isSignificant_zero]
      rfl
  | some c =>
      have hsignificant := p.significant _ ((p.coefficients.mem_entries_iff n c).mpr hfind)
      rw [coefficient, hfind, Option.getD_some, Option.filter_some, if_pos hsignificant]

/-- Either there are no coefficients, and the degree is zero, or the degree has a significant
coefficient. -/
theorem degree_cases :
    (p.coefficients.entries = [] ∧ p.degree = .zero) ∨
      (∃ front, p.coefficients.entries = front ++ [(p.degree, p.coefficient p.degree)]) ∧
        isSignificant (p.coefficient p.degree) = true := by
  rcases List.eq_nil_or_concat' p.coefficients.entries with hnil | ⟨front, last, hlast⟩
  · left
    exact ⟨hnil, by rw [degree_eq_getLast?, hnil]; rfl⟩
  · right
    have hdegree : p.degree = last.1 := by rw [degree_eq_getLast?, hlast]; simp
    have hmem : last ∈ p.coefficients.entries := by rw [hlast]; simp
    have hcoefficient : p.coefficient p.degree = last.2 := by
      rw [hdegree]
      exact coefficient_eq_of_mem hmem
    refine ⟨⟨front, ?_⟩, ?_⟩
    · rw [hcoefficient, hdegree]
      exact hlast
    · rw [hcoefficient]
      exact p.significant last hmem

/-- The coefficient of a degree other than zero is significant. -/
theorem isSignificant_degree (h : p.degree ≠ .zero) : isSignificant (p.coefficient p.degree) = true := by
  rcases p.degree_cases with ⟨-, hzero⟩ | ⟨-, hsignificant⟩
  · exact absurd hzero h
  · exact hsignificant

/-- A polynomial of degree zero has at most the coefficient of the power zero. -/
theorem entries_of_degree_eq_zero (h : p.degree = .zero) :
    p.coefficients.entries = [] ∧ isSignificant (p.coefficient .zero) = false ∨
      p.coefficients.entries = [(.zero, p.coefficient .zero)] ∧
        isSignificant (p.coefficient .zero) = true := by
  rcases p.degree_cases with ⟨hnil, -⟩ | ⟨⟨front, hfront⟩, hsignificant⟩
  · left
    refine ⟨hnil, ?_⟩
    have hfind : p.coefficients.find? .zero = none := by rw [PowerMap.find?, hnil]; rfl
    rw [coefficient, hfind]
    exact isSignificant_zero
  · right
    rw [h] at hfront hsignificant
    -- no power is below zero
    have hascending := p.coefficients.ascending
    rw [hfront, List.pairwise_append] at hascending
    have hnil : front = [] := by
      rw [List.eq_nil_iff_forall_not_mem]
      intro entry hentry
      exact absurd (hascending.2.2 entry hentry _ (List.mem_singleton_self _)) (Nat.not_lt_zero _)
    rw [hnil] at hfront
    exact ⟨hfront, hsignificant⟩

end Polynomial

end Quadra
