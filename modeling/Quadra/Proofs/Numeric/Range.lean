import Quadra.Proofs.Binary64.Symmetry
import Quadra.Proofs.Binary64.Whole
import Quadra.Proofs.Numeric.Newton

set_option autoImplicit false

/-!
# Square roots of any size

The first step at the square root of a positive number leads to one half or more, and every other one at
most halves the guess: a guess may be infinite, but it is not `nan`. Above `epsilon` no guess ever falls
below `2 ^ (-32)`, so that no step divides by zero. The square root of infinity is `nan`.
-/

namespace Quadra.Numeric

open Binary64

/-! ## Lower bounds -/

/-- The number is positive infinity, or finite and at least `l`. -/
inductive AtLeast (l : Rat) : Binary64 → Prop
  | infinite : AtLeast l (.infinite false)
  | finite {x : Binary64} (hx : x.isFinite = true) (h : l ≤ x.value) : AtLeast l x

/-- What is rounded does not fall below a number, unless it overflows. -/
theorem atLeast_of_rounds {y z : Binary64} {q : Rat} (hy : y.isFinite = true)
    (hz : z = .infinite false ∨ Rounds z q) (h : y.value ≤ q) : AtLeast y.value z := by
  rcases hz with rfl | hrounds
  · exact .infinite
  · exact .finite hrounds.isFinite (hrounds.ge_of_ge hy h)

theorem exists_value_eq_inverse {k : Nat} (hk : k ≤ 1074) :
    ∃ y : Binary64, y.isFinite = true ∧ y.value = 1 / 2 ^ k := by
  obtain ⟨y, hy, hvalue⟩ :=
    exists_value_eq_mul_zpow (n := 1) (e := -k) (by norm_num) (by omega) (by omega)
  refine ⟨y, hy, ?_⟩
  rw [hvalue, zpow_neg, zpow_natCast, Nat.cast_one, one_mul, one_div]

namespace AtLeast

variable {l l' : Rat} {x y : Binary64}

theorem mono (h : AtLeast l x) (hle : l' ≤ l) : AtLeast l' x := by
  cases h with
  | infinite => exact .infinite
  | finite hx hl => exact .finite hx (le_trans hle hl)

theorem not_isZero (h : AtLeast l x) (hl : 0 < l) : x.isZero = false := by
  cases h with
  | infinite => rfl
  | finite hx hle =>
      rw [← Bool.not_eq_true, isZero_iff hx]
      exact (lt_of_lt_of_le hl hle).ne'

theorem not_isNaN (h : AtLeast l x) : x.isNaN = false := by
  cases h with
  | infinite => rfl
  | finite hx hle =>
      obtain ⟨_, _, _, _, rfl⟩ := eq_finite_of_isFinite hx
      rfl

/-- A sum is at least either term. -/
theorem add (h : AtLeast l x) (h' : AtLeast 0 y) (hl : 0 ≤ l) : AtLeast l (x + y) := by
  cases h with
  | infinite =>
      cases h' with
      | infinite => exact .infinite
      | finite hy hle =>
          obtain ⟨_, _, _, _, rfl⟩ := eq_finite_of_isFinite hy
          exact .infinite
  | finite hx hle =>
      cases h' with
      | infinite =>
          obtain ⟨_, _, _, _, rfl⟩ := eq_finite_of_isFinite hx
          exact .infinite
      | finite hy hle' =>
          have hsum := atLeast_of_rounds hx (add_cases hx hy (le_trans hl hle) hle') (by linarith)
          exact hsum.mono hle

theorem half {k : Nat} (h : AtLeast (1 / 2 ^ k) x) (hk : k < 1074) :
    AtLeast (1 / 2 ^ (k + 1)) (x / 2) := by
  cases h with
  | infinite =>
      rw [infinite_div _ isFinite_two, show (2 : Binary64).isNegative = false by decide +kernel]
      exact .infinite
  | finite hx hle =>
      obtain ⟨y, hy, hvalue⟩ := exists_value_eq_inverse (k := k + 1) hk
      rw [← hvalue]
      apply atLeast_of_rounds hy (.inr (rounds_half hx))
      rw [hvalue, pow_succ, ← div_div]
      linarith

end AtLeast

/-! ## Guesses -/

section

variable {x g : Binary64} (hx : x.isFinite = true) (hpos : 0 < x.value)

include hx hpos

/-- The cofactor of a positive guess is not negative. -/
theorem atLeast_cofactor {l : Rat} (hl : 0 < l) (hg : AtLeast l g) : AtLeast 0 (x / g) := by
  cases hg with
  | infinite =>
      rw [div_infinite _ hx]
      exact .finite rfl (value_zero _).ge
  | finite hgfinite hle =>
      have hquotient := atLeast_of_rounds (y := zero false) rfl
        (div_cases hx hgfinite hpos.le (lt_of_lt_of_le hl hle))
        (by rw [value_zero]; exact (div_pos hpos (lt_of_lt_of_le hl hle)).le)
      rwa [value_zero] at hquotient

/-- A step at most halves a guess. -/
theorem atLeast_refine {k : Nat} (hk : k < 1074) (hg : AtLeast (1 / 2 ^ k) g) :
    AtLeast (1 / 2 ^ (k + 1)) (refine x g) :=
  (hg.add (atLeast_cofactor hx hpos (by positivity) hg) (by positivity)).half hk

omit hx hpos in
/-- Nor is it below half the cofactor. -/
theorem atLeast_refine_of_cofactor {k : Nat} (hk : k < 1074) (hg : AtLeast 0 g)
    (hcofactor : AtLeast (1 / 2 ^ k) (x / g)) : AtLeast (1 / 2 ^ (k + 1)) (refine x g) := by
  rw [refine, add_swap]
  exact (hcofactor.add hg (by positivity)).half hk

/-- The least number of all has half of it rounded to zero, by which it is then divided. -/
theorem div_half_of_zero (hzero : (x / 2).value = 0) : x / (x / 2) = infinite false := by
  have hhalf := (rounds_half hx).isFinite
  have hne : x.isZero = false := by
    rw [← Bool.not_eq_true, isZero_iff hx]
    exact hpos.ne'
  have hsign : x.isNegative = false := by
    rw [isNegative_eq_decide hpos.ne', decide_eq_false hpos.not_gt]
  have hsign' : (x / 2).isNegative = false := by
    rw [div_of_isFinite hx isFinite_two (by rw [value_two]; norm_num), isNegative_ofMagnitude, hsign,
      show (2 : Binary64).isNegative = false by decide +kernel]
    rfl
  rw [finite_div hx hhalf, (isZero_iff hhalf).mpr hzero, hne, hsign, hsign']
  rfl

/-- The first step leads to one half or more: the cofactor of half a number is at least one. -/
theorem atLeast_guess_one : AtLeast (1 / 2 ^ 1) (guess x 1) := by
  have hhalf := rounds_half hx
  have hnonneg : 0 ≤ (x / 2).value := hhalf.nonneg (by linarith)
  have hle : (x / 2).value ≤ x.value := hhalf.le_of_le hx (by linarith)
  have hcofactor : AtLeast (1 / 2 ^ 0) (x / (x / 2)) := by
    rcases hnonneg.eq_or_lt with hzero | hhalfpos
    · rw [div_half_of_zero hx hpos hzero.symm]
      exact .infinite
    · have hone := atLeast_of_rounds isFinite_ofNat_one (div_cases hx hhalf.isFinite hpos.le hhalfpos)
        (by rwa [value_one, one_le_div hhalfpos])
      exact hone.mono (by rw [value_one]; norm_num)
  exact atLeast_refine_of_cofactor (by norm_num) (.finite hhalf.isFinite hnonneg) hcofactor

/-- From there every step at most halves the guess. -/
theorem atLeast_guess_succ (k : Nat) (hk : k < 1074) : AtLeast (1 / 2 ^ (k + 1)) (guess x (k + 1)) := by
  induction k with
  | zero => exact atLeast_guess_one hx hpos
  | succ k ih => exact atLeast_refine hx hpos hk (ih (by omega))

/-- So the last guess has not fallen below `2 ^ (-20)`. -/
theorem atLeast_sqrt : AtLeast (1 / 1048576) (sqrt x) := by
  rw [sqrt_eq_guess hx hpos]
  exact (atLeast_guess_succ hx hpos 19 (by norm_num)).mono (by norm_num)

end

/-- A step at a finite number of at least `2 ^ (-30)` keeps the lower bound. A guess that is not far
above the bound has a great cofactor. -/
theorem atLeast_refine_of_large {x g : Binary64} (hx : x.isFinite = true)
    (hlow : 1 / 1073741824 ≤ x.value) (hg : AtLeast (1 / 4294967296) g) :
    AtLeast (1 / 4294967296) (refine x g) := by
  have hpos : 0 < x.value := by linarith
  cases hg with
  | infinite => exact (atLeast_refine hx hpos (k := 0) (by norm_num) .infinite).mono (by norm_num)
  | finite hgfinite hge =>
      have hgpos : 0 < g.value := by linarith
      rcases le_total g.value (1 / 268435456) with hsmall | hlarge
      · obtain ⟨y, hy, hvalue⟩ := exists_value_eq_inverse (k := 2) (by norm_num)
        have hcofactor : AtLeast (1 / 2 ^ 2) (x / g) := by
          rw [← hvalue]
          apply atLeast_of_rounds hy (div_cases hx hgfinite hpos.le hgpos)
          rw [hvalue, le_div_iff₀ hgpos]
          linarith
        have hstep := atLeast_refine_of_cofactor (by norm_num) (.finite hgfinite hgpos.le) hcofactor
        exact hstep.mono (by norm_num)
      · have hstep := atLeast_refine hx hpos (k := 28) (by norm_num)
          (.finite hgfinite (by norm_num; linarith))
        exact hstep.mono (by norm_num)

/-- Every guess at the square root of such a number keeps the lower bound. -/
theorem atLeast_guess {x : Binary64} (hx : x.isFinite = true) (hlow : 1 / 1073741824 ≤ x.value)
    (k : Nat) : AtLeast (1 / 4294967296) (guess x k) := by
  induction k with
  | zero =>
      have hfirst := AtLeast.half (k := 30) (.finite hx (by norm_num; linarith)) (by norm_num)
      exact hfirst.mono (by norm_num)
  | succ k ih => exact atLeast_refine_of_large hx hlow ih

/-- At infinity the first guess is infinite and all others are `nan`. -/
theorem guess_infinite (k : Nat) : guess (infinite false) (k + 1) = nan := by
  induction k with
  | zero => decide +kernel
  | succ k ih =>
      rw [guess_succ, ih]
      decide +kernel

theorem guess_nan (k : Nat) : guess nan k = nan := by
  induction k with
  | zero => rfl
  | succ k ih =>
      rw [guess_succ, ih]
      rfl

theorem value_of_epsilon_lt {x : Binary64} (hx : x.isFinite = true) (h : epsilon < x) :
    1 / 1073741824 ≤ x.value := by
  rw [lt_iff_value_lt isFinite_epsilon hx] at h
  refine le_trans ?_ h.le
  exact le_trans (by norm_num) epsilon_near.1.le

/-- No guess at the square root of a number above `epsilon` is a zero. -/
theorem not_isZero_guess {x : Binary64} (h : epsilon < x) (k : Nat) : (guess x k).isZero = false := by
  rcases x with _ | s | ⟨s, m, e, hc⟩
  · exact absurd h (not_lt_nan _)
  · have hs : s = false := by
      cases s
      · rfl
      · exact absurd h (by decide +kernel)
    subst hs
    cases k with
    | zero => decide +kernel
    | succ k => rw [guess_infinite]; rfl
  · exact (atLeast_guess rfl (value_of_epsilon_lt rfl h) k).not_isZero (by norm_num)

/-- The square root of a finite number above `epsilon` is not `nan`. -/
theorem not_isNaN_sqrt {x : Binary64} (hx : x.isFinite = true) (h : epsilon < x) :
    (sqrt x).isNaN = false := by
  have hlow := value_of_epsilon_lt hx h
  exact (atLeast_sqrt hx (by linarith)).not_isNaN

/-- The square root of infinity is `nan`. -/
theorem sqrt_infinite : sqrt (infinite false) = nan := guess_infinite 19

end Quadra.Numeric
