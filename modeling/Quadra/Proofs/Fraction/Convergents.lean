import Mathlib.Algebra.Order.Floor.Ring
import Mathlib.Data.Nat.Fib.Basic
import Quadra.Fraction.Expansion
import Quadra.Proofs.Numeric.Floor

set_option autoImplicit false

/-!
# Convergents in natural numbers

The parts of two successive convergents are natural numbers. Their cross product is `1` or `-1`, so a
convergent is in lowest terms, and they grow at least like the Fibonacci numbers. As long as they are
at most `2 ^ 53` the binary64 convergents are exactly these, and what is left to expand is exact too.
-/

namespace Quadra.Fraction

open Binary64 Numeric

/-! ## Continuants -/

/-- Two successive convergents in natural numbers, the newer one `h / k`. -/
structure Continuants where
  h : Nat
  h₀ : Nat
  k : Nat
  k₀ : Nat

namespace Continuants

/-- The continuants in front of the first term. -/
def start : Continuants := ⟨1, 0, 0, 1⟩

/-- The continuants with one more term `a`. -/
def advance (w : Continuants) (a : Nat) : Continuants := ⟨a * w.h + w.h₀, w.h, a * w.k + w.k₀, w.k⟩

/-- The cross product of the two convergents. -/
def cross (w : Continuants) : Int := w.h * w.k₀ - w.h₀ * w.k

/-- The numerator of the number whose expansion has these convergents and then `t`. -/
def numer (w : Continuants) (t : Rat) : Rat := w.h * t + w.h₀

/-- The denominator of the number whose expansion has these convergents and then `t`. -/
def denom (w : Continuants) (t : Rat) : Rat := w.k * t + w.k₀

/-- The cross product is `1` or `-1`. -/
def Unimodular (w : Continuants) : Prop := |w.cross| = 1

theorem unimodular_start : start.Unimodular := rfl

theorem cross_advance (w : Continuants) (a : Nat) : (w.advance a).cross = -w.cross := by
  simp only [cross, advance]
  push_cast
  ring

/-- Every term flips the sign of the cross product. -/
theorem Unimodular.advance {w : Continuants} (hw : w.Unimodular) (a : Nat) :
    (w.advance a).Unimodular := by
  rw [Unimodular, cross_advance, abs_neg]
  exact hw

theorem Unimodular.abs_cast_cross {w : Continuants} (hw : w.Unimodular) : |(w.cross : Rat)| = 1 := by
  exact_mod_cast congrArg (Int.cast (R := Rat)) hw

/-- A convergent is in lowest terms. -/
theorem Unimodular.coprime {w : Continuants} (hw : w.Unimodular) : Nat.Coprime w.h w.k := by
  have hdvd : ((Nat.gcd w.h w.k : Nat) : Int) ∣ w.cross :=
    dvd_sub (Dvd.dvd.mul_right (Int.natCast_dvd_natCast.mpr (Nat.gcd_dvd_left _ _)) _)
      (Dvd.dvd.mul_left (Int.natCast_dvd_natCast.mpr (Nat.gcd_dvd_right _ _)) _)
  rw [← dvd_abs, hw] at hdvd
  exact Nat.dvd_one.mp (by exact_mod_cast hdvd)

/-! ### What is left to expand -/

section

variable (w : Continuants) (a : Nat) (f t' : Rat)

theorem numer_eq_advance : w.numer (a + f) = (w.advance a).h + f * w.h := by
  simp only [numer, advance]
  push_cast
  ring

theorem denom_eq_advance : w.denom (a + f) = (w.advance a).k + f * w.k := by
  simp only [denom, advance]
  push_cast
  ring

/-- The convergent misses the number by the fraction `f` that its last term has left. -/
theorem h_mul_denom_sub :
    (w.advance a).h * w.denom (a + f) - (w.advance a).k * w.numer (a + f) =
      f * (w.advance a).cross := by
  simp only [cross, numer, denom, advance]
  push_cast
  ring

/-- The number with `t'` behind the term differs from that with the fraction `f` by as much as
`f * t'` differs from one. -/
theorem numer_mul_denom_sub :
    (w.advance a).numer t' * w.denom (a + f) - (w.advance a).denom t' * w.numer (a + f) =
      (f * t' - 1) * (w.advance a).cross := by
  simp only [cross, numer, denom, advance]
  push_cast
  ring

theorem h_mul_denom_sub_k_mul_numer : w.h * w.denom t' - w.k * w.numer t' = w.cross := by
  simp only [cross, numer, denom]
  push_cast
  ring

end

/-! ### Growth -/

/-- The parts are at least as large as the Fibonacci numbers, those of `h` together with the part before
it, since the first term may be zero. -/
structure Grown (w : Continuants) (n : Nat) : Prop where
  k : Nat.fib n ≤ w.k
  sum_k : Nat.fib (n + 1) ≤ w.k + w.k₀
  sum_h : Nat.fib n ≤ w.h + w.h₀
  double_h : Nat.fib (n + 1) ≤ 2 * w.h + w.h₀

theorem grown_start : start.Grown 0 := ⟨by decide, by decide, by decide, by decide⟩

/-- The first term may be zero. -/
theorem grown_start_advance (a : Nat) : (start.advance a).Grown 1 where
  k := by simp [advance, start]
  sum_k := by simp [advance, start]
  sum_h := by simp [advance, start]
  double_h := by simp [advance, start]

/-- Every other term is at least one. -/
theorem Grown.advance {w : Continuants} {n a : Nat} (hw : w.Grown n) (ha : 1 ≤ a) :
    (w.advance a).Grown (n + 1) := by
  have hk : w.k ≤ a * w.k := Nat.le_mul_of_pos_left _ ha
  have hh : w.h ≤ a * w.h := Nat.le_mul_of_pos_left _ ha
  have hfib : Nat.fib (n + 1 + 1) = Nat.fib n + Nat.fib (n + 1) := Nat.fib_add_two
  obtain ⟨h₁, h₂, h₃, h₄⟩ := hw
  constructor <;> simp only [Continuants.advance] <;> omega

end Continuants

/-! ## Exact convergents -/

/-- The binary64 convergents are these natural numbers, and `t` is left to expand. -/
structure Convergents.Represents (c : Convergents) (w : Continuants) (t : Rat) : Prop where
  h : c.h.isFinite = true ∧ c.h.value = w.h
  h₀ : c.h₀.isFinite = true ∧ c.h₀.value = w.h₀
  k : c.k.isFinite = true ∧ c.k.value = w.k
  k₀ : c.k₀.isFinite = true ∧ c.k₀.value = w.k₀
  rest : c.rest.isFinite = true ∧ c.rest.value = t

/-- A product and sum of natural numbers is exact when the result is at most `2 ^ 53`. -/
theorem value_mul_add {x y z : Binary64} {a b c : Nat} (hx : x.isFinite = true ∧ x.value = a)
    (hy : y.isFinite = true ∧ y.value = b) (hz : z.isFinite = true ∧ z.value = c)
    (hle : a * b + c ≤ 9007199254740992) :
    (x * y + z).isFinite = true ∧ (x * y + z).value = ((a * b + c : Nat) : Rat) := by
  obtain ⟨hmul, hproduct⟩ := value_mul_of_integer hx.1 hy.1 (n := (a * b : Nat))
    (abs_le.mpr ⟨by omega, by omega⟩) (by rw [hx.2, hy.2]; push_cast; rfl)
  obtain ⟨hadd, hsum⟩ := value_add_of_integer hmul hz.1 (n := (a * b + c : Nat))
    (abs_le.mpr ⟨by omega, by omega⟩) (by rw [hproduct, hz.2]; push_cast; rfl)
  exact ⟨hadd, by exact_mod_cast hsum⟩

namespace Convergents

theorem represents_start {x : Binary64} (hx : x.isFinite = true) :
    (start x).Represents Continuants.start x.value where
  h := ⟨isFinite_ofNat_one, by rw [start, value_one]; rfl⟩
  h₀ := ⟨isFinite_ofNat_zero, by rw [start, value_ofNat_zero]; rfl⟩
  k := ⟨isFinite_ofNat_zero, by rw [start, value_ofNat_zero]; rfl⟩
  k₀ := ⟨isFinite_ofNat_one, by rw [start, value_one]; rfl⟩
  rest := ⟨hx, rfl⟩

/-- A step is exact as long as its results are at most `2 ^ 53`. -/
theorem Represents.advance {c : Convergents} {w : Continuants} {t : Rat} (hc : c.Represents w t)
    (ht : 0 ≤ t) (hh : (w.advance ⌊t⌋₊).h ≤ 9007199254740992)
    (hk : (w.advance ⌊t⌋₊).k ≤ 9007199254740992) :
    c.advance.Represents (w.advance ⌊t⌋₊) (t - ⌊t⌋₊) := by
  have hfloor : ((t.floor : Int) : Rat) = (⌊t⌋₊ : Nat) := by
    exact_mod_cast (Int.natCast_floor_eq_floor ht).symm
  have hterm : (floor c.rest).isFinite = true ∧ (floor c.rest).value = (⌊t⌋₊ : Nat) := by
    rw [← hfloor, ← hc.rest.2]
    exact floor_spec hc.rest.1
  have hleft := sub_floor hc.rest.1 (by rw [hc.rest.2]; exact ht)
  rw [hc.rest.2, hfloor] at hleft
  exact {
    h := value_mul_add hterm hc.h hc.h₀ hh
    h₀ := hc.h
    k := value_mul_add hterm hc.k hc.k₀ hk
    k₀ := hc.k
    rest := hleft }

end Convergents

end Quadra.Fraction
