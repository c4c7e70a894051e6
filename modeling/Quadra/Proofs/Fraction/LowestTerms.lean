import Mathlib.Data.Rat.Lemmas
import Mathlib.Tactic.LinearCombination
import Mathlib.Tactic.Ring
import Quadra.Fraction.Basic

set_option autoImplicit false

/-!
# Lowest terms

The reduction of two words never fails and always ends in lowest terms. It keeps the value of every
input but one: the greatest common divisor of the least numerator and the denominator `2 ^ 63` is
`2 ^ 63`, which is negative as a signed word, so that this input loses its sign.
-/

namespace Quadra.Fraction

open Numeric

/-! ## The divisor -/

/-- The denominator that is meant: zero counts as one. -/
def meant (denom : UInt64) : UInt64 := if denom = 0 then 1 else denom

/-- What both parts are divided by. -/
def divisor (numer : Int64) (denom : UInt64) : UInt64 :=
  wordGcd (.ofNat numer.toInt.natAbs) (meant denom)

theorem reduce_eq (numer : Int64) (denom : UInt64) : reduce numer denom =
    ⟨numer / (divisor numer denom).toInt64, meant denom / divisor numer denom⟩ := rfl

/-- The one input whose divisor is negative as a signed word while its numerator is not zero. -/
def Wraps (numer : Int64) (denom : UInt64) : Prop :=
  numer = Int64.minValue ∧ denom = 9223372036854775808

instance (numer : Int64) (denom : UInt64) : Decidable (Wraps numer denom) :=
  inferInstanceAs (Decidable (_ ∧ _))

@[simp] theorem toNat_meant (denom : UInt64) : (meant denom).toNat = max denom.toNat 1 := by
  rw [meant]
  split
  · rename_i hzero
    rw [hzero]
    rfl
  · rename_i hne
    have hpos : denom.toNat ≠ 0 := fun hzero => hne (UInt64.toNat_inj.mp hzero)
    omega

theorem natAbs_toInt_le (numer : Int64) : numer.toInt.natAbs ≤ 9223372036854775808 := by
  have hlow := Int64.le_toInt numer
  have hhigh := Int64.toInt_lt numer
  omega

theorem natAbs_toInt_eq_iff (numer : Int64) :
    numer.toInt.natAbs = 9223372036854775808 ↔ numer = Int64.minValue := by
  rw [← Int64.toInt_inj, Int64.toInt_minValue]
  have hhigh := Int64.toInt_lt numer
  omega

section

variable (numer : Int64) (denom : UInt64)

theorem toNat_divisor :
    (divisor numer denom).toNat = Nat.gcd numer.toInt.natAbs (max denom.toNat 1) := by
  have hmagnitude : (UInt64.ofNat numer.toInt.natAbs).toNat = numer.toInt.natAbs :=
    UInt64.toNat_ofNat_of_lt' (lt_of_le_of_lt (natAbs_toInt_le numer) (by decide))
  rw [divisor, toNat_wordGcd, hmagnitude, toNat_meant]

theorem toNat_divisor_pos : 0 < (divisor numer denom).toNat := by
  rw [toNat_divisor]
  exact Nat.gcd_pos_of_pos_right _ (by omega)

theorem toNat_divisor_dvd_numer : (divisor numer denom).toNat ∣ numer.toInt.natAbs := by
  rw [toNat_divisor]
  exact Nat.gcd_dvd_left _ _

theorem toNat_divisor_dvd_denom : (divisor numer denom).toNat ∣ max denom.toNat 1 := by
  rw [toNat_divisor]
  exact Nat.gcd_dvd_right _ _

/-- The divisor of a numerator other than zero is a positive signed word, except for the one input. -/
theorem toNat_divisor_lt (hnumer : numer.toInt ≠ 0) (h : ¬ Wraps numer denom) :
    (divisor numer denom).toNat < 9223372036854775808 := by
  have hdvd := toNat_divisor_dvd_numer numer denom
  have hle := natAbs_toInt_le numer
  have hdvd_le := Nat.le_of_dvd (by omega) hdvd
  by_contra hlarge
  apply h
  have hmagnitude : numer.toInt.natAbs = 9223372036854775808 := by omega
  refine ⟨(natAbs_toInt_eq_iff numer).mp hmagnitude, ?_⟩
  -- the denominator is a multiple of `2 ^ 63` below `2 ^ 64`
  obtain ⟨k, hk⟩ := toNat_divisor_dvd_denom numer denom
  have hword := denom.toNat_lt
  rw [← UInt64.toNat_inj]
  show denom.toNat = 9223372036854775808
  rw [show (divisor numer denom).toNat = 9223372036854775808 by omega] at hk
  omega

end

theorem toInt_toInt64_of_lt {u : UInt64} (h : u.toNat < 9223372036854775808) :
    u.toInt64.toInt = u.toNat := by
  have hword : u.toInt64 = Int64.ofNat u.toNat := by
    rw [← UInt64.toInt64_ofNat', UInt64.ofNat_toNat]
  rw [hword, Int64.toInt_ofNat_of_lt h]

/-! ## Divisions that are defined -/

/-- The signed quotient, unless the divisor is zero or the quotient is `2 ^ 63`. -/
def signedQuotient? (n d : Int64) : Option Int64 :=
  if d = 0 ∨ n = Int64.minValue ∧ d = -1 then none else some (n / d)

/-- The quotient, unless the divisor is zero. -/
def quotient? (n d : UInt64) : Option UInt64 := if d = 0 then none else some (n / d)

/-- The reduction with its divisions checked. -/
def reduce? (numer : Int64) (denom : UInt64) : Option Fraction := do
  let n ← signedQuotient? numer (divisor numer denom).toInt64
  let d ← quotient? (meant denom) (divisor numer denom)
  return ⟨n, d⟩

/-- The reduction never fails. -/
theorem reduce?_eq_some (numer : Int64) (denom : UInt64) :
    reduce? numer denom = some (reduce numer denom) := by
  have hpos := toNat_divisor_pos numer denom
  have hne : divisor numer denom ≠ 0 := by
    intro hzero
    rw [hzero, UInt64.toNat_zero] at hpos
    exact absurd hpos (lt_irrefl 0)
  have hsigned : (divisor numer denom).toInt64 ≠ 0 := by
    intro hzero
    apply hne
    rw [← UInt64.toUInt64_toInt64 (divisor numer denom), hzero]
    rfl
  have hrange : ¬ (numer = Int64.minValue ∧ (divisor numer denom).toInt64 = -1) := by
    rintro ⟨hnumer, hone⟩
    -- as a word minus one is `2 ^ 64 - 1`, which does not divide the least numerator
    have hword : divisor numer denom = 18446744073709551615 := by
      rw [← UInt64.toUInt64_toInt64 (divisor numer denom), hone]
      rfl
    have hle := Nat.le_of_dvd (by rw [hnumer]; decide) (toNat_divisor_dvd_numer numer denom)
    rw [hword, hnumer] at hle
    exact absurd hle (by decide)
  rw [reduce?, signedQuotient?, if_neg (not_or.mpr ⟨hsigned, hrange⟩), quotient?, if_neg hne]
  rfl

/-! ## Values -/

/-- The parts have no common divisor, and the denominator is not zero. -/
structure Irreducible (f : Fraction) : Prop where
  denom_pos : 1 ≤ f.denom.toNat
  coprime : Nat.Coprime f.numer.toInt.natAbs f.denom.toNat

/-- The fraction is the rational `numer / denom`, where a zero denominator counts as one. -/
def Denotes (f : Fraction) (numer : Int64) (denom : UInt64) : Prop :=
  f.numer.toInt * max denom.toNat 1 = numer.toInt * f.denom.toNat

instance (f : Fraction) (numer : Int64) (denom : UInt64) : Decidable (f.Denotes numer denom) :=
  inferInstanceAs (Decidable (_ = _))

/-- Parts without a common divisor are those of their quotient. -/
theorem parts_eq_of_cross {n n' : Int} {d d' : Nat} (hd : 1 ≤ d) (hd' : 1 ≤ d')
    (hcoprime : Nat.Coprime n.natAbs d) (hcoprime' : Nat.Coprime n'.natAbs d') (h : n * d' = n' * d) :
    n = n' ∧ d = d' := by
  have hpos : (0 : Int) < d := by exact_mod_cast hd
  have hpos' : (0 : Int) < d' := by exact_mod_cast hd'
  have hvalue : (n : Rat) / (d : Int) = n' / (d' : Int) := by
    rw [div_eq_div_iff (by exact_mod_cast hpos.ne') (by exact_mod_cast hpos'.ne')]
    exact_mod_cast h
  obtain ⟨hnumer, hdenom⟩ := Rat.div_int_inj hpos hpos' hcoprime hcoprime' hvalue
  exact ⟨hnumer, Int.natCast_inj.mp hdenom⟩

/-- Irreducible fractions of the same value have the same parts. -/
theorem Irreducible.eq_of_cross {f g : Fraction} (hf : f.Irreducible) (hg : g.Irreducible)
    (h : f.numer.toInt * g.denom.toNat = g.numer.toInt * f.denom.toNat) : f = g := by
  obtain ⟨hnumer, hdenom⟩ :=
    parts_eq_of_cross hf.denom_pos hg.denom_pos hf.coprime hg.coprime h
  obtain ⟨n, d⟩ := f
  obtain ⟨n', d'⟩ := g
  rw [Int64.toInt_inj] at hnumer
  rw [UInt64.toNat_inj] at hdenom
  subst hnumer hdenom
  rfl

section

variable (numer : Int64) (denom : UInt64)

theorem toNat_denom_reduce :
    (reduce numer denom).denom.toNat = max denom.toNat 1 / (divisor numer denom).toNat := by
  rw [reduce_eq, UInt64.toNat_div, toNat_meant]

/-- The numerator is divided as an integer, except for the one input. -/
theorem toInt_numer_reduce (h : ¬ Wraps numer denom) :
    (reduce numer denom).numer.toInt = numer.toInt.tdiv (divisor numer denom).toNat := by
  rw [reduce_eq]
  by_cases hzero : numer.toInt = 0
  · -- the divisor may be negative as a signed word, but zero stays zero
    have hnumer : numer = 0 := Int64.toInt_inj.mp hzero
    rw [hzero, Int.zero_tdiv]
    simp only [hnumer]
    rw [Int64.zero_div]
    rfl
  · have hdivisor := toInt_toInt64_of_lt (toNat_divisor_lt numer denom hzero h)
    have hpos := toNat_divisor_pos numer denom
    have hne : (divisor numer denom).toInt64 ≠ -1 := by
      intro hone
      rw [hone] at hdivisor
      exact absurd hdivisor (by rw [show (-1 : Int64).toInt = -1 from rfl]; omega)
    rw [Int64.toInt_div_of_ne_right _ _ hne, hdivisor]

/-- The one input becomes one, though it is minus one. -/
theorem reduce_of_wraps {numer : Int64} {denom : UInt64} (h : Wraps numer denom) :
    reduce numer denom = ⟨1, 1⟩ := by
  obtain ⟨rfl, rfl⟩ := h
  decide +kernel

theorem irreducible_reduce : (reduce numer denom).Irreducible := by
  by_cases h : Wraps numer denom
  · rw [reduce_of_wraps h]
    exact ⟨by decide, by decide⟩
  · have hpos := toNat_divisor_pos numer denom
    have hdenom := toNat_denom_reduce numer denom
    have hnumer : (reduce numer denom).numer.toInt.natAbs =
        numer.toInt.natAbs / (divisor numer denom).toNat := by
      rw [toInt_numer_reduce numer denom h, Int.natAbs_tdiv, Int.natAbs_natCast]
      rfl
    constructor
    · rw [hdenom]
      exact Nat.div_pos (Nat.le_of_dvd (by omega) (toNat_divisor_dvd_denom numer denom)) hpos
    · rw [toNat_divisor] at hnumer hdenom hpos
      rw [hnumer, hdenom]
      exact Nat.coprime_div_gcd_div_gcd hpos

/-- The value is kept, except for the one input. -/
theorem denotes_reduce_iff : (reduce numer denom).Denotes numer denom ↔ ¬ Wraps numer denom := by
  constructor
  · intro hvalue h
    rw [Denotes, reduce_of_wraps h, h.1, h.2] at hvalue
    exact absurd hvalue (by decide)
  · intro h
    obtain ⟨a, ha⟩ := Int.natCast_dvd.mpr (toNat_divisor_dvd_numer numer denom)
    obtain ⟨b, hb⟩ := toNat_divisor_dvd_denom numer denom
    have hpos := toNat_divisor_pos numer denom
    have hnumer : (reduce numer denom).numer.toInt = a := by
      rw [toInt_numer_reduce numer denom h, ha, Int.mul_tdiv_cancel_left _ (by omega)]
    have hdenom : (reduce numer denom).denom.toNat = b := by
      rw [toNat_denom_reduce, hb, Nat.mul_div_cancel_left _ hpos]
    rw [Denotes, hnumer, hdenom, ha]
    calc a * ((max denom.toNat 1 : Nat) : Int)
        = a * (((divisor numer denom).toNat * b : Nat) : Int) := by rw [hb]
      _ = (divisor numer denom).toNat * a * b := by push_cast; ring

end

/-- Irreducible fractions are equal exactly when the inputs they denote are the same rational. -/
theorem Irreducible.eq_iff_of_denotes {f g : Fraction} {numer numer' : Int64} {denom denom' : UInt64}
    (hf : f.Irreducible) (hg : g.Irreducible) (h : f.Denotes numer denom)
    (h' : g.Denotes numer' denom') :
    f = g ↔ numer.toInt * max denom'.toNat 1 = numer'.toInt * max denom.toNat 1 := by
  rw [Denotes] at h h'
  have hpos : (0 : Int) < f.denom.toNat := by exact_mod_cast hf.denom_pos
  have hdenom : (0 : Int) < (max denom.toNat 1 : Nat) := by omega
  have hdenom' : (0 : Int) < (max denom'.toNat 1 : Nat) := by omega
  generalize ((max denom.toNat 1 : Nat) : Int) = d at h hdenom ⊢
  generalize ((max denom'.toNat 1 : Nat) : Int) = d' at h' hdenom' ⊢
  constructor
  · rintro rfl
    apply Int.eq_of_mul_eq_mul_right hpos.ne'
    linear_combination d * h' - d' * h
  · intro hcross
    apply hf.eq_of_cross hg
    apply Int.eq_of_mul_eq_mul_right (mul_pos hdenom hdenom').ne'
    linear_combination g.denom.toNat * d' * h - f.denom.toNat * d * h' +
      f.denom.toNat * g.denom.toNat * hcross

/-- **Fractions in lowest terms.** The reduction never fails and ends in lowest terms. It keeps the value
exactly when the input is not the least numerator over `2 ^ 63`; two such inputs have the same fraction
exactly when they are the same rational. -/
theorem reduce_lowest_terms (numer : Int64) (denom : UInt64) :
    reduce? numer denom = some (reduce numer denom) ∧ (reduce numer denom).Irreducible ∧
      ((reduce numer denom).Denotes numer denom ↔ ¬ Wraps numer denom) ∧
      ∀ numer' denom', ¬ Wraps numer denom → ¬ Wraps numer' denom' →
        (reduce numer denom = reduce numer' denom' ↔
          numer.toInt * max denom'.toNat 1 = numer'.toInt * max denom.toNat 1) := by
  refine ⟨reduce?_eq_some numer denom, irreducible_reduce numer denom, denotes_reduce_iff numer denom, ?_⟩
  intro numer' denom' h h'
  exact (irreducible_reduce numer denom).eq_iff_of_denotes (irreducible_reduce numer' denom')
    ((denotes_reduce_iff numer denom).mpr h) ((denotes_reduce_iff numer' denom').mpr h')

/-- The inputs `-6/8` and `-3/4` are the same rational. -/
theorem reduce_lowest_terms_six_eighths : ¬ Wraps (-6) 8 ∧ ¬ Wraps (-3) 4 ∧
    (reduce (-6) 8 = reduce (-3) 4 ↔ (-6 : Int64).toInt * max (4 : UInt64).toNat 1 =
      (-3 : Int64).toInt * max (8 : UInt64).toNat 1) :=
  ⟨by decide, by decide, (reduce_lowest_terms (-6) 8).2.2.2 (-3) 4 (by decide) (by decide)⟩

/-- The least numerator over `2 ^ 63` is minus one and becomes one. -/
theorem reduce_least_over_limit : reduce Int64.minValue 9223372036854775808 = ⟨1, 1⟩ ∧
    ¬ (reduce Int64.minValue 9223372036854775808).Denotes Int64.minValue 9223372036854775808 := by
  decide +kernel

end Quadra.Fraction
