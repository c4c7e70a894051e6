import Quadra.Proofs.Fraction.WholeParts

set_option autoImplicit false

/-!
# Faithful fractions

A number that is not near an integer becomes the fraction that the parts of its last convergent are, or
there is a fault since one of them does not fit. The parts are read exactly: neither is `nan`, none is
cut off at the end of its word, and the denominator is not zero. Three terms of the expansion of a
number of at most `2 ^ (-1024)` are the one exception, and the number is lost.
-/

namespace Quadra.Fraction

open Binary64 Numeric

/-- The parts of the convergent are the integers `h` and `k`, which their words hold exactly. -/
structure Reads (c : Convergents) (h k : Nat) : Prop where
  numer : c.h.isFinite = true ∧ c.h.value = h
  denom : c.k.isFinite = true ∧ c.k.value = k
  numer_lt : h < 9223372036854775808
  one_le_denom : 1 ≤ k
  denom_lt : k < 9223372036854775808
  numer_word : c.h.toInt64.toInt = h
  denom_word : c.k.toUInt64.toNat = k

/-- What the number `x` may become at the convergent of `c`: a fault where a part does not fit, else the
fraction of the parts in lowest terms, with the sign of `x`. -/
inductive Faithful (x : Binary64) (c : Convergents) : Except Fault Fraction → Prop
  | outOfRange (h : limit ≤ c.h ∨ limit ≤ c.k) : Faithful x c (.error (.outOfRange x))
  | ok {h k : Nat} (f : Fraction) (reads : Reads c h k) (irreducible : f.Irreducible)
      (value : f.numer.toInt * k = signed x h * f.denom.toNat) : Faithful x c (.ok f)

/-! ## Parts that are whole -/

theorem limit_le_infinite : limit ≤ infinite false := by
  decide +kernel

/-- A whole number that fits is an integer. -/
theorem exists_integer_of_whole {l : Nat} {x : Binary64} (h : Whole l x) (hfits : ¬ limit ≤ x) :
    ∃ n : Nat, (x.isFinite = true ∧ x.value = n) ∧ l ≤ n ∧ n < 9223372036854775808 := by
  cases h with
  | infinite => exact absurd limit_le_infinite hfits
  | integer hx n hn hle =>
      refine ⟨n, ⟨hx, hn⟩, hle, ?_⟩
      rw [limit_le_iff hx, hn, not_le] at hfits
      exact_mod_cast hfits

theorem Reads.of_integers {c : Convergents} {h k : Nat} (hh : c.h.isFinite = true ∧ c.h.value = h)
    (hk : c.k.isFinite = true ∧ c.k.value = k) (hh₁ : h < 9223372036854775808) (hk₁ : 1 ≤ k)
    (hk₂ : k < 9223372036854775808) : Reads c h k where
  numer := hh
  denom := hk
  numer_lt := hh₁
  one_le_denom := hk₁
  denom_lt := hk₂
  numer_word := by
    refine toInt_toInt64_of_integer hh.1 (by exact_mod_cast hh.2) ?_
    rw [Nat.abs_cast]
    exact_mod_cast hh₁
  denom_word := by
    rw [toUInt64_of_natural hk.1 hk.2 hk₂]
    exact toNat_ofNat_of_lt hk₂

/-- Parts that are read fit. -/
theorem Reads.not_limit_le {c : Convergents} {h k : Nat} (hc : Reads c h k) :
    ¬ (limit ≤ c.h ∨ limit ≤ c.k) := by
  rw [limit_le_iff hc.numer.1, limit_le_iff hc.denom.1, hc.numer.2, hc.denom.2]
  have hh := hc.numer_lt
  have hk := hc.denom_lt
  norm_cast
  omega

/-- Parts are read in one way. -/
theorem Reads.unique {c : Convergents} {h k h' k' : Nat} (hc : Reads c h k) (hc' : Reads c h' k') :
    h = h' ∧ k = k' :=
  ⟨by exact_mod_cast hc.numer.2.symm.trans hc'.numer.2,
    by exact_mod_cast hc.denom.2.symm.trans hc'.denom.2⟩

section

variable {x tolerance : Binary64} {terms : Nat} {c : Convergents} (hx : x.isFinite = true)
  (hfar : ¬ abs (x - round x) < tolerance)
  (hc : expand (abs x) tolerance terms (.start (abs x)) = c)

include hx hfar hc

theorem faithful_of_wholeParts (hparts : WholeParts c) : Faithful x c (approximate x tolerance terms) := by
  by_cases hlimit : limit ≤ c.h ∨ limit ≤ c.k
  · rw [approximate_of_limit hx hfar hc hlimit]
    exact .outOfRange hlimit
  · -- a whole part below the limit is an integer, which its word holds
    obtain ⟨hfits, hfits'⟩ := not_or.mp hlimit
    obtain ⟨h, hh, -, hh₁⟩ := exists_integer_of_whole hparts.h hfits
    obtain ⟨k, hk, hk₁, hk₂⟩ := exists_integer_of_whole hparts.k hfits'
    rw [approximate_of_integers hx hfar hc hh hk hk₂, if_neg (not_le.mpr hh₁)]
    exact .ok _ (.of_integers hh hk hh₁ hk₁ hk₂) (irreducible_reduce _ _)
      (cross_reduce (abs_signed_lt hh₁) hk₁ hk₂)

end

/-! ## Numbers that are lost -/

/-- The number is so small that its reciprocal is infinite, and the expansion goes on for three terms. -/
def Lost (x : Binary64) (terms : Nat) : Prop :=
  0 < |x.value| ∧ |x.value| ≤ 1 / 2 ^ (1024 : Int) ∧ 3 ≤ terms

theorem not_limit_le_nan : ¬ limit ≤ nan := by
  decide +kernel

/-- No fraction stands for a numerator that is `nan`. -/
theorem not_faithful_of_nan {x : Binary64} {c : Convergents} {f : Fraction} (h : c.h = nan) :
    ¬ Faithful x c (.ok f) := by
  rintro ⟨⟩
  rename_i reads _ _
  have hfinite := reads.numer.1
  rw [h] at hfinite
  cases hfinite

section

variable {x tolerance : Binary64} (hx : x.isFinite = true) (htiny : Tiny (abs x))
  (htolerance : 0 ≤ tolerance) (hfar : ¬ abs (x - round x) < tolerance)

include hx htiny htolerance hfar

/-- The tolerance that such a number is not near an integer by is at most the number. -/
theorem tolerance_le_of_tiny :
    tolerance.isFinite = true ∧ 0 ≤ tolerance.value ∧ tolerance.value ≤ (abs x).value := by
  have hquarter := htiny.lt_quarter
  rw [value_abs hx] at hquarter ⊢
  obtain ⟨hdifference, hvalue⟩ := sub_round_of_small hx hquarter.le
  have hfinite := isFinite_abs hdifference
  rcases tolerance with _ | s | ⟨s, m, e, hcanonical⟩
  · exact absurd htolerance (by decide +kernel)
  · cases s with
    | true => exact absurd htolerance (by decide +kernel)
    | false =>
        obtain ⟨_, _, _, _, hfields⟩ := eq_finite_of_isFinite hfinite
        rw [hfields] at hfar
        exact absurd rfl hfar
  · rw [le_iff_value_le isFinite_ofNat_zero rfl, value_ofNat_zero] at htolerance
    rw [lt_iff_value_lt hfinite rfl, value_abs hdifference, hvalue, not_lt] at hfar
    exact ⟨rfl, htolerance, hfar⟩

/-- Up to two terms nothing is lost yet. -/
theorem faithful_of_tiny {terms : Nat} (hterms : 1 ≤ terms) (hfew : terms < 3) :
    Faithful x (expand (abs x) tolerance terms (.start (abs x))) (approximate x tolerance terms) := by
  obtain ⟨hfinite, hnonneg, hle⟩ := tolerance_le_of_tiny hx htiny htolerance hfar
  obtain rfl | rfl : terms = 1 ∨ terms = 2 := by omega
  · exact faithful_of_wholeParts hx hfar rfl (htiny.wholeParts_one hfinite hnonneg hle)
  · have hlimit : limit ≤ (expand (abs x) tolerance 2 (.start (abs x))).k := by
      rw [htiny.expand_two hfinite hnonneg hle]
      exact limit_le_infinite
    rw [approximate_of_limit hx hfar rfl (.inr hlimit)]
    exact .outOfRange (.inr hlimit)

/-- From three terms on the parts are `nan`, which is read as zero over zero. -/
theorem approximate_of_tiny {terms : Nat} (hterms : 3 ≤ terms) :
    approximate x tolerance terms = .ok ⟨0, 1⟩ ∧
      ¬ Faithful x (expand (abs x) tolerance terms (.start (abs x))) (approximate x tolerance terms) := by
  obtain ⟨hfinite, hnonneg, hle⟩ := tolerance_le_of_tiny hx htiny htolerance hfar
  obtain ⟨more, rfl⟩ := Nat.exists_eq_add_of_le' hterms
  obtain ⟨hh, hk⟩ := htiny.expand_three hfinite hnonneg hle more
  have hresult : approximate x tolerance (more + 3) = .ok ⟨0, 1⟩ := by
    -- neither part is at the limit, and both are read as zero
    have hzero : reduce ((if x < 0 then -1 else 1) * nan.toInt64) nan.toUInt64 = ⟨0, 1⟩ := by
      split <;> decide +kernel
    rw [approximate, if_neg (by simp [hx])]
    simp only [if_neg hfar, hh, hk, hzero, Bool.or_eq_true, decide_eq_true_iff, or_self,
      if_neg not_limit_le_nan]
  refine ⟨hresult, ?_⟩
  rw [hresult]
  exact not_faithful_of_nan hh

end

/-- **Fractions are faithful.** A number that is not within the tolerance of an integer becomes the
fraction of the integers that the parts of its last convergent are, or there is a fault since they do not
fit, exactly when the number is not lost; a number that is lost becomes zero. -/
theorem approximate_faithful_iff {x tolerance : Binary64} {terms : Nat} (hx : x.isFinite = true)
    (htolerance : 0 ≤ tolerance) (hterms : 1 ≤ terms) (hfar : ¬ abs (x - round x) < tolerance) :
    (Faithful x (expand (abs x) tolerance terms (.start (abs x))) (approximate x tolerance terms) ↔
        ¬ Lost x terms) ∧
      (Lost x terms → approximate x tolerance terms = .ok ⟨0, 1⟩) := by
  have habs := isFinite_abs hx
  have hvalue := value_abs hx
  have hnonneg : 0 ≤ (abs x).value := by
    rw [hvalue]
    exact abs_nonneg _
  by_cases htiny : Tiny (abs x)
  · have hlost : Lost x terms ↔ 3 ≤ terms := by
      rw [Lost, ← hvalue]
      exact ⟨fun h => h.2.2, fun h => ⟨htiny.pos, htiny.le, h⟩⟩
    rw [hlost]
    by_cases hmany : 3 ≤ terms
    · obtain ⟨hresult, hnot⟩ := approximate_of_tiny hx htiny htolerance hfar hmany
      exact ⟨iff_of_false hnot (not_not.mpr hmany), fun _ => hresult⟩
    · have hfaithful := faithful_of_tiny hx htiny htolerance hfar hterms (not_le.mp hmany)
      exact ⟨iff_of_true hfaithful hmany, fun h => absurd h hmany⟩
  · have hlost : ¬ Lost x terms := by
      rintro ⟨hpos, hle, -⟩
      exact htiny ⟨habs, by rwa [hvalue], by rwa [hvalue]⟩
    have hlarge : (abs x).value = 0 ∨ 1 / 2 ^ (1024 : Int) < (abs x).value := by
      rcases hnonneg.eq_or_lt with hzero | hpos
      · exact .inl hzero.symm
      · exact .inr (not_le.mp fun hle => htiny ⟨habs, hpos, hle⟩)
    refine ⟨iff_of_true ?_ hlost, fun h => absurd h hlost⟩
    exact faithful_of_wholeParts hx hfar rfl (wholeParts_expand habs hnonneg hlarge hterms)

/-- The number nearest to a third, without any tolerance and with forty terms. -/
theorem approximate_faithful_third : (ofBits 4599676419421066581).isFinite = true ∧
    (0 : Binary64) ≤ 0 ∧ 1 ≤ 40 ∧
    ¬ abs (ofBits 4599676419421066581 - round (ofBits 4599676419421066581)) < 0 ∧
    (Faithful (ofBits 4599676419421066581)
        (expand (abs (ofBits 4599676419421066581)) 0 40 (.start (abs (ofBits 4599676419421066581))))
        (approximate (ofBits 4599676419421066581) 0 40) ↔ ¬ Lost (ofBits 4599676419421066581) 40) :=
  ⟨by decide +kernel, by decide +kernel, by decide, by decide +kernel,
    (approximate_faithful_iff (by decide +kernel) (by decide +kernel) (by decide)
      (by decide +kernel)).1⟩

/-- The least positive number, without any tolerance and with three terms, is lost: both parts of its
last convergent are `nan`, and it becomes zero. -/
theorem approximate_least_number : (ofBits 1).isFinite = true ∧ (0 : Binary64) ≤ 0 ∧
    ¬ abs (ofBits 1 - round (ofBits 1)) < 0 ∧ approximate (ofBits 1) 0 3 = .ok ⟨0, 1⟩ ∧
    ¬ Faithful (ofBits 1) (expand (abs (ofBits 1)) 0 3 (.start (abs (ofBits 1))))
      (approximate (ofBits 1) 0 3) := by
  have hresult : approximate (ofBits 1) 0 3 = .ok ⟨0, 1⟩ := by decide +kernel
  have hnumer : (expand (abs (ofBits 1)) 0 3 (.start (abs (ofBits 1)))).h = nan := by decide +kernel
  refine ⟨by decide +kernel, by decide +kernel, by decide +kernel, hresult, ?_⟩
  rw [hresult]
  exact not_faithful_of_nan hnumer

end Quadra.Fraction
