import Quadra.Proofs.Fraction.Conversion

set_option autoImplicit false

/-!
# Accuracy of fractions

Every finite number below `2 ^ 63` in magnitude has a fraction in lowest terms that is within
`1.01 * 10 ^ (-9)` of it, relatively, or that is an integer within `10 ^ (-9)`. It does not depend on
the bound on the number of terms.
-/

namespace Quadra.Fraction

open Binary64 Numeric

/-- The fraction is in lowest terms and close to the number. -/
structure Accurate (f : Fraction) (x : Binary64) : Prop where
  denom_pos : 1 ≤ f.denom.toNat
  coprime : Nat.Coprime f.numer.toInt.natAbs f.denom.toNat
  close : f.denom.toNat = 1 ∧ |f.numer.toInt - x.value| < 1 / 1000000000 ∨
    |f.numer.toInt / f.denom.toNat - x.value| ≤ 101 / 100000000000 * |x.value|

/-- What becomes of the finite number `x`: a fault when it does not fit, else an accurate fraction. -/
inductive Outcome (x : Binary64) : Except Fault Fraction → Prop
  | outOfRange (h : 9223372036854775808 ≤ |x.value|) : Outcome x (.error (.outOfRange x))
  | ok (f : Fraction) (h : |x.value| < 9223372036854775808) (accurate : f.Accurate x) :
      Outcome x (.ok f)

/-- An integer near a number is accurate. -/
theorem accurate_integer {x : Binary64} {n : Int} (hn : |n| < 9223372036854775808)
    (hnear : |x.value - n| < 1 / 1000000000) : Accurate ⟨.ofInt n, 1⟩ x where
  denom_pos := le_rfl
  coprime := Nat.coprime_one_right _
  close := by
    rw [toInt_ofInt_of_abs_lt hn, abs_sub_comm]
    exact .inl ⟨rfl, hnear⟩

section

variable {x : Binary64} (hx : x.isFinite = true)

include hx

/-- A number near an integer fits when the integer does. -/
theorem le_abs_iff_of_near {n : Int} (hnear : |x.value - n| < 1 / 1000000000) :
    9223372036854775808 ≤ |x.value| ↔ 9223372036854775808 ≤ |n| := by
  have hnear' := abs_lt.mp hnear
  rcases le_or_gt 1099511627776 |x.value| with hlarge | hsmall
  · rw [eq_intCast_of_near hx hlarge hnear]
    exact_mod_cast Iff.rfl
  · have hn : |n| < 1099511627777 := by
      have hcast : |(n : Rat)| < 1099511627777 := by
        rw [abs_lt] at hsmall ⊢
        constructor <;> linarith
      exact_mod_cast hcast
    exact iff_of_false (by linarith) (by omega)

theorem outcome_of_near (h : abs (x - round x) < epsilon) :
    ∃ r, (∀ terms, 24 ≤ terms → approximate x epsilon terms = r) ∧ Outcome x r := by
  obtain ⟨-, n, hn, hnear⟩ := exists_integer_of_near hx h
  have hrange := le_abs_iff_of_near hx hnear
  refine ⟨_, fun terms _ => approximate_of_near hx h hn terms, ?_⟩
  split
  · rename_i hlarge
    exact .outOfRange (hrange.mpr hlarge)
  · rename_i hfits
    have hn' : |n| < 9223372036854775808 := not_le.mp hfits
    exact .ok _ (not_le.mp (mt hrange.mp hfits)) (accurate_integer hn' hnear)

/-- The fraction of a convergent that is near is accurate. -/
theorem accurate_convergent {h k : Nat} (hh : h < 9223372036854775808) (hk : 1 ≤ k)
    (hk₁ : k < 9223372036854775808) (hcoprime : Nat.Coprime h k)
    (hnear : |h - |x.value| * k| ≤ 1001 / 1000000000000 * (|x.value| * k)) :
    Accurate ⟨.ofInt (signed x h), .ofNat k⟩ x := by
  have hmagnitude : |signed x h| < 9223372036854775808 := abs_signed_lt hh
  have hdenom := toNat_ofNat_of_lt hk₁
  have hpos : (0 : Rat) < k := by exact_mod_cast hk
  constructor
  · rwa [hdenom]
  · rwa [hdenom, toInt_ofInt_of_abs_lt hmagnitude, natAbs_signed]
  · rw [hdenom, toInt_ofInt_of_abs_lt hmagnitude, abs_signed_sub hx]
    right
    refine le_of_mul_le_mul_right ?_ hpos
    rw [abs_div_sub_mul hpos]
    have hvalue : 0 ≤ |x.value| * k := mul_nonneg (abs_nonneg _) hpos.le
    linarith

/-- A large number is an integer, which is its own first convergent where it is not rounded to itself. -/
theorem approximate_of_large {n : Int} (hlarge : 4503599627370496 ≤ |x.value|) (hn : x.value = n)
    (more : Nat) : approximate x epsilon (more + 1) =
      if 9223372036854775808 ≤ |n| then .error (.outOfRange x) else .ok ⟨.ofInt n, 1⟩ := by
  by_cases h : abs (x - round x) < epsilon
  · obtain ⟨-, m, hm, hnear⟩ := exists_integer_of_near hx h
    have heq : (n : Rat) = m := hn.symm.trans (eq_intCast_of_near hx (by linarith) hnear)
    obtain rfl : n = m := by exact_mod_cast heq
    exact approximate_of_near hx h hm _
  · have hvalue := value_abs hx
    have hnatural : |x.value| = (n.natAbs : Rat) := by rw [hn, Nat.cast_natAbs, Int.cast_abs]
    have hlarge' : 4503599627370496 ≤ (abs x).value := by rwa [hvalue]
    obtain ⟨hh, hk⟩ := start_advance_of_large (isFinite_abs hx) hlarge'
    rw [approximate_of_far hx h (expand_of_large (isFinite_abs hx) hlarge' more) (h := n.natAbs) (k := 1)
      (by rw [hh]; exact ⟨isFinite_abs hx, hvalue.trans hnatural⟩) (by exact_mod_cast hk) le_rfl
      (by norm_num) (Nat.coprime_one_right _), signed_natAbs_of_integer hx hn, Int.abs_eq_natAbs]
    norm_cast

theorem outcome_of_large (hlarge : 4503599627370496 ≤ |x.value|) :
    ∃ r, (∀ terms, 24 ≤ terms → approximate x epsilon terms = r) ∧ Outcome x r := by
  obtain ⟨n, hn⟩ := exists_eq_intCast_of_large hx hlarge
  have hrange : 9223372036854775808 ≤ |x.value| ↔ 9223372036854775808 ≤ |n| := by
    rw [hn]
    exact_mod_cast Iff.rfl
  have hresult : ∀ terms, 24 ≤ terms → approximate x epsilon terms =
      if 9223372036854775808 ≤ |n| then .error (.outOfRange x) else .ok ⟨.ofInt n, 1⟩ := by
    intro terms hterms
    obtain ⟨more, rfl⟩ := Nat.exists_eq_add_of_le' (by omega : 1 ≤ terms)
    exact approximate_of_large hx hlarge hn more
  refine ⟨_, hresult, ?_⟩
  split
  · rename_i hfault
    exact .outOfRange (hrange.mpr hfault)
  · rename_i hfits
    refine .ok _ (not_le.mp (mt hrange.mp hfits)) (accurate_integer (not_le.mp hfits) ?_)
    rw [hn, sub_self, abs_zero]
    norm_num

/-- Every other number is expanded until a convergent is near. -/
theorem outcome_of_small (h : ¬ abs (x - round x) < epsilon) (hsmall : |x.value| < 4503599627370496) :
    ∃ r, (∀ terms, 24 ≤ terms → approximate x epsilon terms = r) ∧ Outcome x r := by
  have hvalue := value_abs hx
  have hexpandable : Expandable (abs x) := by
    refine ⟨isFinite_abs hx, ?_, ?_⟩
    · rw [hvalue]
      exact le_abs_value_of_far hx h
    · rw [hvalue]
      exact hsmall.le
  obtain ⟨w, t, c, hend, hexpand⟩ := hexpandable.exists_expand_eq
  obtain ⟨n, hready⟩ := hend.ready
  have hnear := hend.near
  rw [hvalue] at hnear
  have hk : 1 ≤ (w.advance ⌊t⌋₊).k := by exact_mod_cast hready.one_le_k_advance
  have hh₁ := hready.h_advance_small
  have hk₁ := hready.k_advance_small
  have hcoprime := (hready.unimodular.advance ⌊t⌋₊).coprime
  have hresult : ∀ terms, 24 ≤ terms → approximate x epsilon terms =
      .ok ⟨.ofInt (signed x (w.advance ⌊t⌋₊).h), .ofNat (w.advance ⌊t⌋₊).k⟩ := by
    intro terms hterms
    rw [approximate_of_far hx h (hexpand terms hterms) hend.represents.h hend.represents.k hk (by omega)
      hcoprime, if_neg (by omega)]
  refine ⟨_, hresult, .ok _ (by linarith) ?_⟩
  exact accurate_convergent hx (by omega) hk (by omega) hcoprime hnear

end

/-- From 24 terms on the outcome of a finite number is a fault or an accurate fraction, and always the
same. -/
theorem exists_outcome {x : Binary64} (hx : x.isFinite = true) :
    ∃ r, (∀ terms, 24 ≤ terms → approximate x epsilon terms = r) ∧ Outcome x r := by
  rcases le_or_gt 4503599627370496 |x.value| with hlarge | hsmall
  · exact outcome_of_large hx hlarge
  · by_cases h : abs (x - round x) < epsilon
    · exact outcome_of_near hx h
    · exact outcome_of_small hx h hsmall

theorem approximate_of_not_isFinite {x : Binary64} (hx : x.isFinite = false) (terms : Nat) :
    approximate x epsilon terms = .error (.notFinite x) := by
  rw [approximate, if_pos (by rw [hx]; rfl)]

/-- **Fractions are accurate.** A number has no fraction exactly when it is not finite, and its fraction
does not fit exactly when its magnitude is `2 ^ 63` or more. Every other number has an accurate fraction,
and more terms would not change any of this. -/
theorem ofNumber_accurate (x : Binary64) :
    (ofNumber x = .error (.notFinite x) ↔ x.isFinite = false) ∧
      (ofNumber x = .error (.outOfRange x) ↔ x.isFinite = true ∧ 2 ^ 63 ≤ |x.value|) ∧
      ((∃ f, ofNumber x = .ok f ∧ f.Accurate x) ↔ x.isFinite = true ∧ |x.value| < 2 ^ 63) ∧
      ∀ more, approximate x epsilon (maxTerms + more) = ofNumber x := by
  cases hx : x.isFinite with
  | false =>
      have hresult : ofNumber x = .error (.notFinite x) := approximate_of_not_isFinite hx maxTerms
      refine ⟨iff_of_true hresult rfl, ?_, ?_, fun more => ?_⟩
      · rw [hresult]
        simp
      · rw [hresult]
        simp
      · rw [hresult, approximate_of_not_isFinite hx]
  | true =>
      obtain ⟨r, happroximate, houtcome⟩ := exists_outcome hx
      have hresult : ofNumber x = r := happroximate maxTerms (by decide)
      have hmore : ∀ more, approximate x epsilon (maxTerms + more) = r :=
        fun more => happroximate _ (by rw [maxTerms]; omega)
      have hlimit : (2 : Rat) ^ 63 = 9223372036854775808 := by norm_num
      rw [hresult, hlimit]
      cases houtcome with
      | outOfRange h =>
          refine ⟨by simp, iff_of_true rfl ⟨rfl, h⟩, ?_, hmore⟩
          refine iff_of_false ?_ fun hfits => absurd hfits.2 (not_lt.mpr h)
          rintro ⟨f, hf, -⟩
          cases hf
      | ok f h accurate =>
          refine ⟨by simp, ?_, iff_of_true ⟨f, rfl, accurate⟩ ⟨rfl, h⟩, hmore⟩
          exact iff_of_false (by simp) fun hlarge => absurd hlarge.2 (not_le.mpr h)

/-- The convergent of `π` at which its expansion ends. -/
example : ofNumber 3.141592653589793 = .ok ⟨103993, 33102⟩ := by
  decide +kernel

end Quadra.Fraction
