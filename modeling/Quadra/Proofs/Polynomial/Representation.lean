import Quadra.Proofs.Equation.RoundTrip

set_option autoImplicit false

/-!
# What a polynomial stores

A polynomial stores the coefficients of a map whose exact magnitude is above the tolerance, and its degree
is the greatest power that is stored: `represents_ofCoefficients`.
-/

namespace Quadra

/-- The magnitude of a coefficient is above the tolerance. An infinity is above all numbers, and `nan` is
above none. -/
def ExceedsTolerance : Binary64 → Prop
  | .nan => False
  | .infinite _ => True
  | c@(.finite _ _ _ _) => Numeric.epsilon.value < |c.value|

theorem isSignificant_iff_exceedsTolerance (c : Binary64) :
    isSignificant c = true ↔ ExceedsTolerance c := by
  cases c with
  | nan =>
      refine ⟨fun h => ?_, False.elim⟩
      exact absurd (not_isNaN_of_isSignificant h) (by decide)
  | infinite negative =>
      refine ⟨fun _ => trivial, fun _ => ?_⟩
      cases negative <;> decide +kernel
  | finite negative m e h => exact isSignificant_iff rfl

namespace Polynomial

variable (p : Polynomial)

/-- No stored power is above the degree. -/
theorem le_degree_of_mem {entry : Power × Binary64} (h : entry ∈ p.coefficients.entries) :
    entry.1 ≤ p.degree := by
  rcases p.degree_cases with ⟨hnil, -⟩ | ⟨⟨front, hfront⟩, -⟩
  · rw [hnil] at h
    cases h
  · have hascending := p.coefficients.ascending
    rw [hfront, List.pairwise_append] at hascending
    rw [hfront, List.mem_append, List.mem_singleton] at h
    rcases h with hmem | rfl
    · exact (hascending.2.2 entry hmem _ (List.mem_singleton_self _)).le
    · exact le_rfl

/-- A power above the degree has no coefficient. -/
theorem coefficient_of_degree_lt {n : Power} (h : p.degree < n) : p.coefficient n = 0 := by
  cases hfind : p.coefficients.find? n with
  | none => rw [coefficient, hfind, Option.getD_none]
  | some c =>
      have hle := p.le_degree_of_mem ((p.coefficients.mem_entries_iff n c).mpr hfind)
      exact absurd h (not_lt.mpr hle)

/-- The degree is stored, unless nothing is. -/
theorem degree_mem (h : p.coefficients.entries ≠ []) :
    (p.degree, p.coefficient p.degree) ∈ p.coefficients.entries := by
  rcases p.degree_cases with ⟨hnil, -⟩ | ⟨⟨front, hfront⟩, -⟩
  · exact absurd hnil h
  · rw [hfront]
    exact List.mem_append_right front (List.mem_singleton_self _)

theorem degree_of_entries_eq_nil (h : p.coefficients.entries = []) : p.degree = .zero := by
  rw [degree_eq_getLast?, h]
  rfl

/-- The polynomial is the normal form of the map. -/
structure Represents (map : PowerMap Binary64) (p : Polynomial) : Prop where
  mem_iff : ∀ entry, entry ∈ p.coefficients.entries ↔ entry ∈ map.entries ∧ ExceedsTolerance entry.2
  degree_of_nil : p.coefficients.entries = [] → p.degree = .zero
  degree_mem : p.coefficients.entries ≠ [] → ∃ c, (p.degree, c) ∈ p.coefficients.entries
  le_degree : ∀ entry ∈ p.coefficients.entries, entry.1 ≤ p.degree
  stored_of_degree : p.degree ≠ .zero → p.coefficients.find? p.degree = some (p.coefficient p.degree)
  zero_above : ∀ n, p.degree < n → p.coefficient n = 0
  again : ofCoefficients p.coefficients = p

/-- **A polynomial stores the significant coefficients.** Of any map, `nan` and infinities included, these
are kept as they are, the degree is the greatest of their powers, found as a binary64 number, and building
the polynomial again changes nothing. The polynomial of an equation has finite coefficients only. -/
theorem represents_ofCoefficients (map : PowerMap Binary64) :
    Represents map (ofCoefficients map) ∧
      ∀ source p, Equation.parse source = .ok p → p.HasFiniteCoefficients := by
  refine ⟨?_, fun source p h => Equation.hasFiniteCoefficients_of_parse h⟩
  generalize hp : ofCoefficients map = p
  have hne : p.degree ≠ .zero → p.coefficients.entries ≠ [] := mt p.degree_of_entries_eq_nil
  exact
    { mem_iff := by
        rintro ⟨n, c⟩
        rw [← hp, ← isSignificant_iff_exceedsTolerance]
        exact List.mem_filter
      degree_of_nil := p.degree_of_entries_eq_nil
      degree_mem := fun h => ⟨_, p.degree_mem h⟩
      le_degree := fun entry => p.le_degree_of_mem
      stored_of_degree := fun h =>
        (p.coefficients.mem_entries_iff _ _).mp (p.degree_mem (hne h))
      zero_above := fun n => p.coefficient_of_degree_lt
      again := p.ofCoefficients_coefficients }

/-- The polynomial of an equation, and that of a map with numbers that no equation has. -/
theorem represents_ofCoefficients_half :
    Equation.parse ".5X = 1" = .ok (ofCoefficients (.ofList [(.zero, -1), (.one, 0.5)])) ∧
      (ofCoefficients (.ofList [(.zero, -1), (.one, 0.5)])).HasFiniteCoefficients ∧
        Represents (.ofList [(.zero, .nan), (.two, .infinite true)])
          (ofCoefficients (.ofList [(.zero, .nan), (.two, .infinite true)])) := by
  have hparse : Equation.parse ".5X = 1" =
      .ok (ofCoefficients (.ofList [(.zero, -1), (.one, 0.5)])) := by
    decide +kernel
  obtain ⟨hrepresents, hfinite⟩ :=
    represents_ofCoefficients (.ofList [(.zero, .nan), (.two, .infinite true)])
  exact ⟨hparse, hfinite _ _ hparse, hrepresents⟩

/-- The greatest power of all is the degree, `nan` and the tolerance itself are not stored. -/
example : (ofCoefficients (.ofList
      [(.zero, .nan), (.one, Numeric.epsilon), (⟨4294967295, by decide⟩, .infinite true)])).degree =
    ⟨4294967295, by decide⟩ := by
  decide +kernel

end Polynomial

end Quadra
