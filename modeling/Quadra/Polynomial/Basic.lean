import Quadra.Numeric.Floor
import Quadra.Polynomial.PowerMap

set_option autoImplicit false

/-!
# Polynomials

The reduced form of an equation: a polynomial that equals zero, with binary64 coefficients. No
coefficient within `epsilon` of zero is stored.
-/

namespace Quadra

open Numeric in
/-- Whether a coefficient counts as different from zero. -/
def isSignificant (c : Binary64) : Bool := epsilon < abs c

/-- A polynomial, by its significant coefficients. -/
structure Polynomial where
  coefficients : PowerMap Binary64
  significant : ∀ entry ∈ coefficients.entries, isSignificant entry.2 = true

namespace Polynomial

instance : DecidableEq Polynomial := fun p q =>
  if h : p.coefficients = q.coefficients then
    .isTrue (by cases p; cases q; cases h; rfl)
  else .isFalse fun h' => h (by rw [h'])

/-- The polynomial of the significant coefficients of a map. -/
def ofCoefficients (coefficients : PowerMap Binary64) : Polynomial :=
  ⟨coefficients.filter isSignificant, fun _ h => (List.mem_filter.mp h).2⟩

/-- The maximum of the powers as binary64 numbers. -/
def greatestPower (p : Polynomial) : Binary64 :=
  Numeric.maximum (p.coefficients.entries.map fun entry => .ofInt entry.1.val)

/-- The greatest power with a coefficient, or zero where there is none. It is found among the
powers as numbers, the maximum of which is not finite when there are none. -/
def degree (p : Polynomial) : Power :=
  if p.greatestPower.isFinite then p.greatestPower.toUInt32.toFin else .zero

/-- The coefficient of a power, which is zero where none is stored. -/
def coefficient (p : Polynomial) (power : Power) : Binary64 :=
  (p.coefficients.find? power).getD 0

/-- Whether all coefficients are zero. -/
def isEmpty (p : Polynomial) : Bool := p.coefficients.entries.isEmpty

/-- A polynomial is the polynomial of its own coefficients. -/
theorem ofCoefficients_coefficients (p : Polynomial) : ofCoefficients p.coefficients = p := by
  rcases p with ⟨⟨entries, ascending⟩, significant⟩
  have : entries.filter (fun entry => isSignificant entry.2) = entries :=
    List.filter_eq_self.mpr significant
  simp [ofCoefficients, PowerMap.filter, this]

end Polynomial

end Quadra
