import Quadra.Proofs.Equation.Reading
import Quadra.Proofs.Polynomial.Evaluation
import Quadra.Proofs.Polynomial.Significance

set_option autoImplicit false

/-!
# Equations with small integers

The coefficients of a power are integers whose magnitudes add up to at most `2 ^ 53`. No sum is
rounded then, so that the polynomial is the left side minus the right side, in exact arithmetic, and
only sums that are zero are left out.
-/

namespace Quadra.Equation

/-! ## What an equation says -/

namespace Term

/-- The coefficient with the sign of the term. -/
def amount (t : Term) : Rat := if t.subtracted then -t.magnitude else t.magnitude

/-- The value of the term at `x`. -/
def evaluate (x : Rat) (t : Term) : Rat := t.amount * x ^ t.power.val

end Term

/-- The value of a side at `x`, term by term. -/
def evaluate (x : Rat) (terms : List Term) : Rat := (terms.map (Term.evaluate x)).sum

/-- The terms of a power. -/
def termsAt (n : Power) (terms : List Term) : List Term := terms.filter fun t => t.power = n

/-- The coefficient of a power in the left side minus the right side. -/
def difference (left right : List Term) (n : Power) : Rat :=
  ((termsAt n left).map Term.amount).sum - ((termsAt n right).map Term.amount).sum

/-- The coefficients are integers, and the magnitudes of those of a power add up to at most
`2 ^ 53`. -/
structure SmallIntegers (terms : List Term) : Prop where
  integer : ∀ t ∈ terms, ∃ k : Int, t.magnitude = k
  bounded : ∀ n, ((termsAt n terms).map Term.magnitude).sum ≤ 2 ^ 53

/-! ## One term -/

theorem Term.magnitude_nonneg (t : Term) : 0 ≤ t.magnitude := by
  rcases t with ⟨subtracted, _ | text, n⟩
  · exact zero_le_one
  · show 0 ≤ Numeral.value text
    unfold Numeral.value
    positivity

theorem Term.magnitude_le {terms : List Term} (h : SmallIntegers terms) {t : Term}
    (ht : t ∈ terms) : t.magnitude ≤ 2 ^ 53 := by
  have hmem : t.magnitude ∈ (termsAt t.power terms).map Term.magnitude :=
    List.mem_map_of_mem (List.mem_filter.mpr ⟨ht, decide_eq_true rfl⟩)
  refine (List.single_le_sum ?_ _ hmem).trans (h.bounded t.power)
  intro q hq
  obtain ⟨t', -, rfl⟩ := List.mem_map.mp hq
  exact t'.magnitude_nonneg

/-- What a side's terms are multiplied with, exactly. -/
def Side.factor : Side → Rat
  | .left => 1
  | .right => -1

/-- A small integer is read exactly. -/
theorem value_monomial {terms : List Term} (h : SmallIntegers terms) {t : Term} (ht : t ∈ terms)
    (side : Side) :
    (t.monomial side).coefficient.isFinite = true ∧
      (t.monomial side).coefficient.value = side.factor * t.amount := by
  obtain ⟨k, hk⟩ := h.integer t ht
  have hbound : |k| ≤ 9007199254740992 := by
    have hle := Term.magnitude_le h ht
    have hnonneg := t.magnitude_nonneg
    rw [hk] at hle hnonneg
    rw [abs_of_nonneg (by exact_mod_cast hnonneg)]
    exact_mod_cast hle
  obtain ⟨hfinite, hvalue⟩ : t.coefficient.isFinite = true ∧ t.coefficient.value = t.magnitude := by
    rw [Term.coefficient, hk]
    exact Binary64.value_nearest (Binary64.exists_value_eq_intCast hbound)
  -- the signs of the term and of the side do not round
  have hneg : ∀ x : Binary64, (-x).isFinite = x.isFinite := Binary64.isFinite_neg
  have hvalue_neg : ∀ x : Binary64, (-x).value = -x.value := Binary64.value_neg
  rw [coefficient_monomial side hfinite, Term.amount]
  cases t.subtracted <;> cases side <;>
    simp [Side.factor, hneg, hvalue_neg, hfinite, hvalue]

/-! ## Sums without rounding

Everything below holds of any list of monomials that `AddsExactly`, in whatever order they come. -/

/-- The exact sum of the coefficients of a power. -/
def exactAt (n : Power) (ms : List Monomial) : Rat := ((coefficientsAt n ms).map Binary64.value).sum

/-- All coefficients are integers, and the magnitudes of those of a power add up to at most
`2 ^ 53`. -/
structure AddsExactly (ms : List Monomial) : Prop where
  finite : ∀ m ∈ ms, m.coefficient.isFinite = true
  integer : ∀ m ∈ ms, ∃ k : Int, m.coefficient.value = k
  bounded : ∀ n, ((coefficientsAt n ms).map fun c => |c.value|).sum ≤ 2 ^ 53

namespace AddsExactly

/-- Leaving out the last monomials leaves sums that are still small enough. -/
theorem of_append {ms ms' : List Monomial} (h : AddsExactly (ms ++ ms')) : AddsExactly ms where
  finite m hm := h.finite m (List.mem_append_left _ hm)
  integer m hm := h.integer m (List.mem_append_left _ hm)
  bounded n := by
    have hle := h.bounded n
    rw [coefficientsAt_append, List.map_append, List.sum_append] at hle
    have hnonneg : 0 ≤ ((coefficientsAt n ms').map fun c => |c.value|).sum := by
      refine List.sum_nonneg fun q hq => ?_
      obtain ⟨m, -, rfl⟩ := List.mem_map.mp hq
      exact abs_nonneg _
    linarith

theorem integer_coefficientsAt {ms : List Monomial} (h : AddsExactly ms) (n : Power) :
    ∀ c ∈ coefficientsAt n ms, ∃ k : Int, c.value = k := by
  intro c hc
  obtain ⟨m, hm, rfl⟩ := exists_of_mem_coefficientsAt hc
  exact h.integer m hm

/-- No sum is rounded. -/
theorem value_sumAt {ms : List Monomial} (h : AddsExactly ms) (n : Power) :
    (sumAt n ms).isFinite = true ∧ (sumAt n ms).value = exactAt n ms := by
  have hfinite : ∀ c ∈ coefficientsAt n ms, c.isFinite = true := by
    intro c hc
    obtain ⟨m, hm, rfl⟩ := exists_of_mem_coefficientsAt hc
    exact h.finite m hm
  exact Binary64.foldl_add_of_integers hfinite (h.integer_coefficientsAt n) (h.bounded n)

theorem staysFinite {ms : List Monomial} (h : AddsExactly ms) : StaysFinite ms := by
  rintro read ⟨rest, rfl⟩ n
  exact (h.of_append.value_sumAt n).1

theorem exists_exactAt_eq {ms : List Monomial} (h : AddsExactly ms) (n : Power) :
    ∃ k : Int, exactAt n ms = k :=
  Binary64.exists_sum_eq_intCast (h.integer_coefficientsAt n)

/-- A sum is significant when it is not zero, since it is an integer. -/
theorem isSignificant_sumAt {ms : List Monomial} (h : AddsExactly ms) (n : Power) :
    isSignificant (sumAt n ms) = true ↔ exactAt n ms ≠ 0 := by
  obtain ⟨k, hk⟩ := h.exists_exactAt_eq n
  obtain ⟨hfinite, hvalue⟩ := h.value_sumAt n
  rw [isSignificant_iff_of_integer hfinite (hvalue.trans hk), hk, Int.cast_ne_zero]

/-- The value of the sums after every monomial is the value of the monomials so far. -/
theorem evaluate_sums {ms : List Monomial} (h : AddsExactly ms) (x : Rat) :
    (sums ms).evaluate x = (ms.map fun m => m.coefficient.value * x ^ m.power.val).sum := by
  induction ms using List.reverseRecOn with
  | nil => rfl
  | append_singleton ms m ih =>
      -- the map changes at the power of the last monomial, by its coefficient
      have hvalue : (sumAt m.power ms + m.coefficient).value = exactAt m.power (ms ++ [m]) := by
        rw [← (h.value_sumAt m.power).2, sumAt_append_singleton, if_pos rfl]
      have hlast : exactAt m.power (ms ++ [m]) = exactAt m.power ms + m.coefficient.value := by
        simp [exactAt, coefficientsAt]
      rw [sums_append_singleton, addMonomial, PowerMap.evaluate_insert, getD_find?_sums,
        ih h.of_append, hvalue, hlast, (h.of_append.value_sumAt m.power).2, List.map_append,
        List.sum_append]
      simp

/-- The value of the reduced polynomial is that of the monomials: nothing that counts is left
out. -/
theorem evaluate_ofCoefficients {ms : List Monomial} (h : AddsExactly ms) (x : Rat) :
    (Polynomial.ofCoefficients (totals ms)).evaluate x =
      (ms.map fun m => m.coefficient.value * x ^ m.power.val).sum := by
  rw [← h.evaluate_sums x, sums_eq_totals]
  refine PowerMap.evaluate_filter ?_ x
  rintro ⟨n, c⟩ hentry hsmall
  have hc : c = sumAt n ms := eq_sumAt_of_mem_totals hentry
  have hzero : ¬ exactAt n ms ≠ 0 := by
    rw [← h.isSignificant_sumAt n, ← hc]
    exact Bool.eq_false_iff.mp hsmall
  show c.value = 0
  rw [hc, (h.value_sumAt n).2]
  exact not_not.mp hzero

/-- A power is stored with its sum, unless that is zero. -/
theorem find?_ofCoefficients {ms : List Monomial} (h : AddsExactly ms) (n : Power) :
    (Polynomial.ofCoefficients (totals ms)).coefficients.find? n =
      if exactAt n ms = 0 then none else some (sumAt n ms) := by
  rw [find?_ofCoefficients_totals, Option.filter_some]
  by_cases hzero : exactAt n ms = 0
  · rw [if_pos hzero, if_neg fun hsig => (h.isSignificant_sumAt n).mp hsig hzero]
  · rw [if_neg hzero, if_pos ((h.isSignificant_sumAt n).mpr hzero)]

end AddsExactly

/-! ## Sums of an equation -/

/-- What holds of the amounts of the terms holds of the monomials, with the opposite sign on the
right side. -/
theorem map_monomials {β : Type} (f : Rat → Power → β) {left right : List Term}
    (h : SmallIntegers (left ++ right)) {left' right' : List Term} (hleft : left' ⊆ left)
    (hright : right' ⊆ right) :
    (monomials left' right').map (fun m => f m.coefficient.value m.power) =
      left'.map (fun t => f t.amount t.power) ++ right'.map fun t => f (-t.amount) t.power := by
  rw [monomials, List.map_append, List.map_map, List.map_map]
  refine congrArg₂ (· ++ ·) (List.map_congr_left ?_) (List.map_congr_left ?_)
  · intro t ht
    have hvalue := (value_monomial h (List.mem_append_left _ (hleft ht)) .left).2
    exact congrArg (f · t.power) (hvalue.trans (one_mul _))
  · intro t ht
    have hvalue := (value_monomial h (List.mem_append_right _ (hright ht)) .right).2
    exact congrArg (f · t.power) (hvalue.trans (neg_one_mul _))

/-- The coefficients of a power come from the terms of that power. -/
theorem coefficientsAt_monomials (left right : List Term) (n : Power) :
    coefficientsAt n (monomials left right) =
      (monomials (termsAt n left) (termsAt n right)).map Monomial.coefficient := by
  rw [coefficientsAt, monomials, monomials, List.filter_append, List.filter_map, List.filter_map]
  rfl

theorem Term.abs_amount (t : Term) : |t.amount| = t.magnitude := by
  rw [Term.amount]
  split
  · rw [abs_neg, abs_of_nonneg t.magnitude_nonneg]
  · exact abs_of_nonneg t.magnitude_nonneg

theorem sum_map_neg {α : Type} (f : α → Rat) (items : List α) :
    (items.map fun item => -f item).sum = -(items.map f).sum := by
  induction items with
  | nil => simp
  | cons item items ih =>
      rw [List.map_cons, List.sum_cons, ih, List.map_cons, List.sum_cons]
      ring

theorem exists_of_mem_monomials {left right : List Term} {m : Monomial}
    (h : m ∈ monomials left right) : ∃ t ∈ left ++ right, ∃ side, m = t.monomial side := by
  rcases List.mem_append.mp h with h | h
  · obtain ⟨t, ht, rfl⟩ := List.mem_map.mp h
    exact ⟨t, List.mem_append_left _ ht, .left, rfl⟩
  · obtain ⟨t, ht, rfl⟩ := List.mem_map.mp h
    exact ⟨t, List.mem_append_right _ ht, .right, rfl⟩

theorem termsAt_append (n : Power) (terms terms' : List Term) :
    termsAt n (terms ++ terms') = termsAt n terms ++ termsAt n terms' := List.filter_append ..

theorem termsAt_subset (n : Power) (terms : List Term) : termsAt n terms ⊆ terms :=
  fun _ ht => List.mem_of_mem_filter ht

namespace SmallIntegers

variable {left right : List Term}

theorem exists_amount_eq (h : SmallIntegers left) {t : Term} (ht : t ∈ left) :
    ∃ k : Int, t.amount = k := by
  obtain ⟨k, hk⟩ := h.integer t ht
  rw [Term.amount, hk]
  split
  · exact ⟨-k, (Int.cast_neg k).symm⟩
  · exact ⟨k, rfl⟩

/-- The monomials of an equation with small integers are added exactly. -/
theorem addsExactly (h : SmallIntegers (left ++ right)) : AddsExactly (monomials left right) where
  finite m hm := by
    obtain ⟨t, ht, side, rfl⟩ := exists_of_mem_monomials hm
    exact (value_monomial h ht side).1
  integer m hm := by
    obtain ⟨t, ht, side, rfl⟩ := exists_of_mem_monomials hm
    obtain ⟨k, hk⟩ := h.exists_amount_eq ht
    rw [(value_monomial h ht side).2, hk]
    cases side with
    | left => exact ⟨k, one_mul _⟩
    | right => exact ⟨-k, by rw [Side.factor, neg_one_mul, Int.cast_neg]⟩
  bounded n := by
    have habs := map_monomials (fun q _ => |q|) h (termsAt_subset n left) (termsAt_subset n right)
    have hmagnitudes : (coefficientsAt n (monomials left right)).map (fun c => |c.value|) =
        (termsAt n (left ++ right)).map Term.magnitude := by
      rw [coefficientsAt_monomials, List.map_map, termsAt_append, List.map_append]
      simp only [abs_neg, Term.abs_amount] at habs
      exact habs
    -- the bound is about the literals, whose signs do not matter
    rw [hmagnitudes]
    exact h.bounded n

/-- The exact sum of a power is its coefficient in the left side minus the right side. -/
theorem exactAt_eq (h : SmallIntegers (left ++ right)) (n : Power) :
    exactAt n (monomials left right) = difference left right n := by
  have hmap := map_monomials (fun q _ => q) h (termsAt_subset n left) (termsAt_subset n right)
  rw [exactAt, coefficientsAt_monomials, List.map_map]
  refine (congrArg List.sum hmap).trans ?_
  rw [List.sum_append, sum_map_neg, difference, sub_eq_add_neg]

/-- The value of the monomials is the left side minus the right side. -/
theorem sum_monomials (h : SmallIntegers (left ++ right)) (x : Rat) :
    ((monomials left right).map fun m => m.coefficient.value * x ^ m.power.val).sum =
      evaluate x left - evaluate x right := by
  have hmap := map_monomials (fun q n => q * x ^ n.val) h (List.Subset.refl left)
    (List.Subset.refl right)
  rw [hmap, List.sum_append]
  simp only [neg_mul]
  rw [sum_map_neg, ← sub_eq_add_neg]
  rfl

end SmallIntegers

/-! ## The reduced equation -/

/-- An equation with small integers is always read. -/
theorem exists_parse_of_smallIntegers {source : String} {left right : List Term}
    (hderives : Derives source left right) (h : SmallIntegers (left ++ right)) :
    ∃ p, parse source = .ok p :=
  ⟨_, (parse_eq_ok_iff_of_derives hderives _).mpr ⟨h.addsExactly.staysFinite, rfl⟩⟩

/-- **Reduction keeps the meaning.** A text that is read is an equation of the grammar. When its
coefficients are small integers, the polynomial is the left side minus the right side: it has the
same solutions, and a power is stored exactly when its coefficient is not zero. -/
theorem evaluate_parse {source : String} {p : Polynomial} (hparse : parse source = .ok p) :
    (∃ left right, Derives source left right) ∧
      ∀ left right, Derives source left right → SmallIntegers (left ++ right) →
        (∀ x : Rat, p.evaluate x = evaluate x left - evaluate x right) ∧
        (∀ x : Rat, p.evaluate x = 0 ↔ evaluate x left = evaluate x right) ∧
        ∀ n, ((p.coefficients.find? n).isSome = true ↔ difference left right n ≠ 0) ∧
          (p.coefficient n).isFinite = true ∧
          ∃ k : Int, (p.coefficient n).value = k ∧ difference left right n = k := by
  refine ⟨exists_derives_of_parse hparse, ?_⟩
  intro left right hderives h
  obtain ⟨-, rfl⟩ := (parse_eq_ok_iff_of_derives hderives p).mp hparse
  have hexact := h.addsExactly
  have hvalue : ∀ x : Rat, (Polynomial.ofCoefficients (totals (monomials left right))).evaluate x =
      evaluate x left - evaluate x right := by
    intro x
    rw [hexact.evaluate_ofCoefficients x, h.sum_monomials x]
  refine ⟨hvalue, fun x => by rw [hvalue x, sub_eq_zero], fun n => ?_⟩
  obtain ⟨k, hk⟩ := hexact.exists_exactAt_eq n
  obtain ⟨hfinite, hsum⟩ := hexact.value_sumAt n
  rw [Polynomial.coefficient, hexact.find?_ofCoefficients n, ← h.exactAt_eq n]
  by_cases hzero : exactAt n (monomials left right) = 0
  · have hvalue_zero : (0 : Binary64).value = k := by
      rw [Binary64.value_ofNat_zero, ← hk, hzero]
    rw [if_pos hzero]
    exact ⟨⟨fun h => absurd h Bool.false_ne_true, fun h => absurd hzero h⟩, rfl, k, hvalue_zero, hk⟩
  · rw [if_neg hzero]
    exact ⟨⟨fun _ => hzero, fun _ => rfl⟩, hfinite, k, hsum.trans hk, hk⟩

/-- The equation `2X=4` is read, its coefficients are small integers, and so its polynomial is the
difference of its sides. -/
theorem evaluate_parse_two_x_eq_four :
    ∃ p left right, parse "2X=4" = .ok p ∧ Derives "2X=4" left right ∧
      SmallIntegers (left ++ right) ∧ ∀ x : Rat, p.evaluate x = evaluate x left - evaluate x right := by
  have hparse : parse "2X=4" = .ok (.ofCoefficients (.ofList [(.zero, -4), (.one, 2)])) := by
    decide +kernel
  have htwo : Numeral.value ['2'] = 2 := by decide +kernel
  have hfour : Numeral.value ['4'] = 4 := by decide +kernel
  have hleft : IsCoefficient ['2'] :=
    ⟨.nearest (Numeral.value ['2']), by decide +kernel, by decide +kernel⟩
  have hright : IsCoefficient ['4'] :=
    ⟨.nearest (Numeral.value ['4']), by decide +kernel, by decide +kernel⟩
  have hderives : Derives "2X=4" [⟨false, some ['2'], .one⟩] [⟨false, some ['4'], .zero⟩] := by
    refine ⟨[.number ['2'], .variable], [.number ['4']], by decide +kernel, ?_, ?_⟩
    · exact .unsigned (.adjacent hleft .bare) .nil
    · exact .unsigned (.constant hright) .nil
  have hsmall : SmallIntegers
      ([⟨false, some ['2'], .one⟩] ++ [⟨false, some ['4'], .zero⟩]) := by
    constructor
    · intro t ht
      rcases List.mem_pair.mp ht with rfl | rfl
      · exact ⟨2, htwo⟩
      · exact ⟨4, hfour⟩
    · intro n
      by_cases hone : Power.one = n
      · subst hone
        norm_num [termsAt, Term.magnitude, htwo, Power.one, Power.zero]
      · by_cases hzero : Power.zero = n
        · subst hzero
          norm_num [termsAt, Term.magnitude, hfour, Power.one, Power.zero]
        · simp [termsAt, hone, hzero]
  exact ⟨_, _, _, hparse, hderives, hsmall, ((evaluate_parse hparse).2 _ _ hderives hsmall).1⟩

end Quadra.Equation
