import Quadra.Binary64.Bits
import Quadra.Proofs.Numeric.PerfectSquare
import Quadra.Proofs.Solution.Cases

set_option autoImplicit false

/-!
# Quadratic equations with integer coefficients

As long as the square, the product and their difference are at most `2 ^ 53`, the discriminant of
integers is exact. Its square root is good enough to tell whether it is a square below `126473²`, and to
find rational roots up to one part in a billion below `129084²`; beyond, twenty steps are too few.
-/

namespace Quadra

open Numeric Binary64

/-! ## Integer coefficients -/

/-- The polynomial `a X^2 + b X + c` of integers. -/
def Polynomial.ofIntegers (a b c : Int) : Polynomial :=
  .ofCoefficients (.ofList [(.zero, ofInt c), (.one, ofInt b), (.two, ofInt a)])

/-- The coefficients stand for integers. The leading one may be too large to be a number, but then
there is no constant. -/
structure Coefficients.StandsFor (k : Coefficients) (a b c : Int) : Prop where
  isFinite_a : k.a.isFinite = true
  isFinite_b : k.b.isFinite = true
  isFinite_c : k.c.isFinite = true
  isFinite_quadruple : (4 * k.a).isFinite = true
  value_a : c ≠ 0 → k.a.value = a
  near_a : |k.a.value - a| ≤ |(a : Rat)| / 4503599627370496
  value_b : k.b.value = b
  value_c : k.c.value = c

namespace Polynomial

variable {a b c : Int}

theorem find?_integers (a b c : Int) :
    (PowerMap.ofList [(Power.zero, ofInt c), (.one, ofInt b), (.two, ofInt a)]).find? .two =
        some (ofInt a) ∧
      (PowerMap.ofList [(Power.zero, ofInt c), (.one, ofInt b), (.two, ofInt a)]).find? .one =
        some (ofInt b) ∧
      (PowerMap.ofList [(Power.zero, ofInt c), (.one, ofInt b), (.two, ofInt a)]).find? .zero =
        some (ofInt c) := ⟨rfl, rfl, rfl⟩

/-- A coefficient of a small integer has its value, whether it is stored or not. -/
theorem value_coefficient {map : PowerMap Binary64} {n : Power} {m : Int}
    (hfind : map.find? n = some (ofInt m)) (hm : |m| ≤ 9007199254740992) :
    ((ofCoefficients map).coefficient n).isFinite = true ∧
      ((ofCoefficients map).coefficient n).value = m := by
  obtain ⟨hfinite, hvalue⟩ := value_ofInt hm
  rw [coefficient, ofCoefficients, PowerMap.find?_filter, hfind, Option.filter_some]
  split
  · exact ⟨hfinite, hvalue⟩
  · rename_i hsmall
    rw [isSignificant_iff_of_integer hfinite hvalue, not_not] at hsmall
    subst hsmall
    exact ⟨isFinite_ofNat_zero, by rw [Option.getD_none, value_ofNat_zero, Int.cast_zero]⟩

/-- The leading coefficient is near its integer, and stored. -/
theorem leading_of_isFinite (ha : a ≠ 0) (hfinite : (ofInt a).isFinite = true) :
    |(ofInt a).value - a| ≤ |(a : Rat)| / 4503599627370496 ∧ isSignificant (ofInt a) = true := by
  have hone : (1 : Rat) ≤ |(a : Rat)| := by exact_mod_cast Int.one_le_abs ha
  have hrounds := rounds_nearest ((isFinite_nearest_iff (a : Rat)).mp hfinite)
  have hrelative := hrounds.relative (normal_of_moderate (by linarith))
  rw [show (2 : Rat) ^ (52 : Int) = 4503599627370496 by norm_num] at hrelative
  refine ⟨hrelative, (isSignificant_iff hfinite).mpr (lt_trans epsilon_near.2 ?_)⟩
  have habs := abs_sub_abs_le_abs_sub (a : Rat) (ofInt a).value
  rw [abs_sub_comm] at habs
  have hnear : |(ofInt a).value - a| ≤ |(a : Rat)| / 4503599627370496 := hrelative
  linarith

theorem degree_ofIntegers (ha : isSignificant (ofInt a) = true) : (ofIntegers a b c).degree = .two := by
  have hentries : (ofIntegers a b c).coefficients.entries =
      [(Power.zero, ofInt c), (.one, ofInt b)].filter (fun entry => isSignificant entry.2) ++
        [(Power.two, ofInt a)] := by
    show ([(Power.zero, ofInt c), (.one, ofInt b)] ++ [(Power.two, ofInt a)]).filter
      (fun entry => isSignificant entry.2) = _
    rw [List.filter_append, List.filter_singleton, ha]
    rfl
  rw [degree_eq_getLast?, hentries, List.getLast?_concat]
  rfl

/-- The stored coefficients stand for the integers. -/
theorem lowCoefficients_ofIntegers (ha : a ≠ 0) (hquadruple : (4 * ofInt a).isFinite = true)
    (hb : |b * b| ≤ 9007199254740992) (hac : |4 * a * c| ≤ 9007199254740992) :
    (ofIntegers a b c).lowCoefficients.StandsFor a b c := by
  obtain ⟨htwo, hone, hzero⟩ := find?_integers a b c
  have hafinite := (isFinite_of_isFinite_mul hquadruple).2
  obtain ⟨hnear, hsignificant⟩ := leading_of_isFinite ha hafinite
  have hleading : (ofIntegers a b c).lowCoefficients.a = ofInt a := by
    show (coefficient _ _) = _
    rw [coefficient, ofIntegers, ofCoefficients, PowerMap.find?_filter, htwo, Option.filter_some,
      if_pos hsignificant]
    rfl
  -- a factor of a product is at most the product
  have hb' : |b| ≤ 9007199254740992 := by
    rcases eq_or_ne b 0 with rfl | hne
    · norm_num
    · exact le_trans (by rw [abs_mul]; exact le_mul_of_one_le_right (abs_nonneg b) (Int.one_le_abs hne)) hb
  have hc' : |c| ≤ 9007199254740992 := by
    refine le_trans ?_ hac
    rw [abs_mul]
    exact le_mul_of_one_le_left (abs_nonneg c) (Int.one_le_abs (by omega))
  obtain ⟨hbfinite, hbvalue⟩ := value_coefficient hone hb'
  obtain ⟨hcfinite, hcvalue⟩ := value_coefficient hzero hc'
  refine
    { isFinite_a := by rw [hleading]; exact hafinite
      isFinite_b := hbfinite
      isFinite_c := hcfinite
      isFinite_quadruple := by rw [hleading]; exact hquadruple
      value_a := fun hc => ?_
      near_a := by rw [hleading]; exact hnear
      value_b := hbvalue
      value_c := hcvalue }
  rw [hleading]
  refine (value_ofInt (le_trans ?_ hac)).2
  rw [mul_comm 4 a, mul_assoc, abs_mul]
  exact le_mul_of_one_le_right (abs_nonneg a) (Int.one_le_abs (by omega))

end Polynomial

/-! ## Quotients -/

/-- A quotient near that of an exact numerator and an exact denominator. -/
theorem abs_div_sub_div_le {u d N t : Rat} (ht : 2 ≤ |t|) (hd : |d - t| ≤ |t| / 1125899906842624)
    (hu : |u - N| ≤ 1995 / 1000000000000 + |N| / 9007199254740992) :
    |u / d - N / t| ≤ 999 / 1000000000000 * max 1 |N / t| := by
  have hdt : |t| ≤ |d| + |d - t| := by
    have h := abs_sub_abs_le_abs_sub t d
    rw [abs_sub_comm] at h
    linarith
  have hdpos : 0 < |d| := by linarith
  have ht₀ : t ≠ 0 := abs_pos.mp (by linarith)
  have hd₀ : d ≠ 0 := abs_pos.mp hdpos
  set scale := max 1 |N / t| with hscale
  have hone : 1 ≤ scale := le_max_left _ _
  have hN : |N| ≤ scale * |t| := by
    rw [← div_le_iff₀ (by linarith), ← abs_div]
    exact le_max_right _ _
  -- the error times the denominator
  have herror : (u / d - N / t) * d = (u - N) - N / t * (d - t) := by
    field_simp
    ring
  have hproduct : |u / d - N / t| * |d| ≤ |u - N| + scale * |d - t| := by
    rw [← abs_mul, herror]
    refine le_trans (abs_sub _ _) (add_le_add_right ?_ _)
    rw [abs_mul]
    exact mul_le_mul_of_nonneg_right (le_max_right _ _) (abs_nonneg _)
  have hdistance : scale * |d - t| ≤ scale * |t| / 1125899906842624 := by
    rw [mul_div_assoc]
    exact mul_le_mul_of_nonneg_left hd (by linarith)
  have htwo : 2 ≤ scale * |t| := by
    calc (2 : Rat) ≤ |t| := ht
      _ ≤ scale * |t| := le_mul_of_one_le_left (abs_nonneg t) hone
  have hdenominator : scale * |t| * (1 - 1 / 1125899906842624) ≤ scale * |d| := by
    rw [mul_assoc]
    exact mul_le_mul_of_nonneg_left (by linarith) (by linarith)
  refine le_of_mul_le_mul_right ?_ hdpos
  calc |u / d - N / t| * |d|
      ≤ 999 / 1000000000000 * (scale * |t| * (1 - 1 / 1125899906842624)) := by linarith
    _ ≤ 999 / 1000000000000 * (scale * |d|) := by linarith
    _ = 999 / 1000000000000 * scale * |d| := by ring

/-- The quotient of finite numbers near an exact numerator and an exact denominator. -/
theorem div_close {x y : Binary64} (hx : x.isFinite = true) (hy : y.isFinite = true) {N t : Rat}
    (ht : 2 ≤ |t|) (hN : |N| ≤ 1073741824) (hyt : |y.value - t| ≤ |t| / 1125899906842624)
    (hxN : |x.value - N| ≤ 1995 / 1000000000000 + |N| / 9007199254740992) :
    (x / y).isFinite = true ∧ |(x / y).value - N / t| ≤ 1 / 1000000000 * max 1 |N / t| := by
  have hclose := abs_div_sub_div_le ht hyt hxN
  set scale := max 1 |N / t| with hscale
  have hquotient : |N / t| ≤ 1073741824 := by
    rw [abs_div, div_le_iff₀ (by linarith)]
    linarith
  have hone : 1 ≤ scale := le_max_left _ _
  have hscale_le : scale ≤ 1073741824 := max_le (by norm_num) hquotient
  have hmagnitude : |x.value / y.value| ≤ 999 / 1000000000000 * scale + scale := by
    have h := abs_sub_abs_le_abs_sub (x.value / y.value) (N / t)
    linarith [le_max_right 1 |N / t|]
  have hne : y.value ≠ 0 := by
    intro h
    rw [h, zero_sub, abs_neg] at hyt
    linarith
  have hrounds := rounds_div hx hy hne
    (lt_overflowBound_of_moderate (by linarith))
  refine ⟨hrounds.isFinite, ?_⟩
  calc |(x / y).value - N / t|
      ≤ |(x / y).value - x.value / y.value| + |x.value / y.value - N / t| := abs_sub_le _ _ _
    _ ≤ 1 / 1000000000 * scale := by linarith [hrounds.error_le]

namespace Coefficients

variable {k : Coefficients} {a b c : Int} (h : k.StandsFor a b c)

include h

/-! ## The discriminant -/

/-- The discriminant of integers is exact. -/
theorem StandsFor.value_discriminant (hb : |b * b| ≤ 9007199254740992)
    (hac : |4 * a * c| ≤ 9007199254740992) (hd : |b * b - 4 * a * c| ≤ 9007199254740992) :
    k.discriminant.isFinite = true ∧
      k.discriminant.value = ((b * b - 4 * a * c : Int) : Rat) := by
  obtain ⟨hsquare, hsquare_eq⟩ := value_mul_of_integer h.isFinite_b h.isFinite_b hb (by
    rw [h.value_b]
    push_cast
    rfl)
  have hproduct : (4 * k.a * k.c).isFinite = true ∧
      (4 * k.a * k.c).value = ((4 * a * c : Int) : Rat) := by
    refine value_mul_of_integer h.isFinite_quadruple h.isFinite_c hac ?_
    rw [h.value_c]
    by_cases hc : c = 0
    · rw [hc, Int.mul_zero, Int.cast_zero, mul_zero]
    · -- with a constant the leading coefficient is small, and its quadruple exact
      have hquadruple : |4 * a| ≤ 9007199254740992 := by
        refine le_trans ?_ hac
        rw [abs_mul (4 * a)]
        exact le_mul_of_one_le_right (abs_nonneg _) (Int.one_le_abs hc)
      rw [(value_mul_of_integer isFinite_four h.isFinite_a hquadruple (by
        rw [value_four, h.value_a hc]
        push_cast
        rfl)).2]
      push_cast
      ring
  refine value_sub_of_integer hsquare hproduct.1 hd ?_
  rw [hsquare_eq, hproduct.2]
  push_cast
  ring

/-! ## Roots -/

/-- The divisor is near its exact value. -/
theorem StandsFor.double_close (ha : a ≠ 0) :
    (2 * k.a).isFinite = true ∧
      |(2 * k.a).value - 2 * a| ≤ |2 * (a : Rat)| / 1125899906842624 := by
  have hone : (1 : Rat) ≤ |(a : Rat)| := by exact_mod_cast Int.one_le_abs ha
  have hnear := h.near_a
  have habs := abs_sub_abs_le_abs_sub k.a.value (a : Rat)
  have habs' := abs_sub_abs_le_abs_sub (a : Rat) k.a.value
  rw [abs_sub_comm] at habs'
  have hrange : |(2 : Binary64).value * k.a.value| < overflowBound := by
    refine lt_of_le_of_lt ?_ ((isFinite_mul_iff isFinite_four h.isFinite_a).mp h.isFinite_quadruple)
    rw [value_two, value_four, abs_mul, abs_mul]
    exact mul_le_mul_of_nonneg_right (by norm_num) (abs_nonneg _)
  have hrounds := rounds_mul isFinite_two h.isFinite_a hrange
  have hrelative := hrounds.relative (normal_of_moderate (by
    rw [value_two, abs_mul, abs_two]
    linarith))
  rw [value_two, abs_mul, abs_two,
    show (2 : Rat) ^ (52 : Int) = 4503599627370496 by norm_num] at hrelative
  have hdouble : |2 * k.a.value - 2 * a| = 2 * |k.a.value - a| := by
    rw [← mul_sub, abs_mul, abs_two]
  refine ⟨hrounds.isFinite, ?_⟩
  rw [abs_mul 2 (a : Rat), abs_two]
  calc |(2 * k.a).value - 2 * a|
      ≤ |(2 * k.a).value - 2 * k.a.value| + |2 * k.a.value - 2 * a| := abs_sub_le _ _ _
    _ ≤ 2 * |(a : Rat)| / 1125899906842624 := by linarith

/-- With a square root near its exact value, the root is near its exact value. -/
theorem StandsFor.root_close (ha : a ≠ 0) (hb : |b| ≤ 134217728) {s : Binary64}
    (hs : s.isFinite = true) {m : Int} (hm : |m| ≤ 134217728)
    (hclose : |s.value - m| ≤ 137 / 68719476736) :
    ((-k.b + s) / (2 * k.a)).isFinite = true ∧
      |((-k.b + s) / (2 * k.a)).value - (-b + m) / (2 * a)| ≤
        1 / 1000000000 * max 1 |(-b + m) / (2 * (a : Rat))| := by
  have hone : (1 : Rat) ≤ |(a : Rat)| := by exact_mod_cast Int.one_le_abs ha
  have hb' : |(b : Rat)| ≤ 134217728 := by exact_mod_cast hb
  have hm' : |(m : Rat)| ≤ 134217728 := by exact_mod_cast hm
  have hnegfinite : (-k.b).isFinite = true := (isFinite_opposite _).trans h.isFinite_b
  have hnegvalue : (-k.b).value = -b := by rw [value_opposite, h.value_b]
  have hnumerator : |-(b : Rat) + m| ≤ 1073741824 := by
    refine le_trans (abs_add_le _ _) ?_
    rw [abs_neg]
    linarith
  -- the computed numerator
  have hshift : |(-(b : Rat) + s.value) - (-b + m)| ≤ 137 / 68719476736 := by
    rwa [add_sub_add_left_eq_sub]
  have hmagnitude := abs_sub_abs_le_abs_sub (-(b : Rat) + s.value) (-b + m)
  have hsum := rounds_add hnegfinite hs (by
    rw [hnegvalue]
    exact lt_overflowBound_of_moderate (by linarith))
  rw [hnegvalue] at hsum
  have hsum_close : |(-k.b + s).value - (-b + m)| ≤
      1995 / 1000000000000 + |-(b : Rat) + m| / 9007199254740992 := by
    calc |(-k.b + s).value - (-b + m)|
        ≤ |(-k.b + s).value - (-b + s.value)| + |(-(b : Rat) + s.value) - (-b + m)| :=
          abs_sub_le _ _ _
      _ ≤ 1995 / 1000000000000 + |-(b : Rat) + m| / 9007199254740992 := by linarith [hsum.error_le]
  obtain ⟨hdfinite, hdclose⟩ := h.double_close ha
  exact div_close hsum.isFinite hdfinite (by rw [abs_mul, abs_two]; linarith) hnumerator
    hdclose hsum_close

end Coefficients

/-! ## Solutions -/

/-- The number is finite and within one part in a billion of `r`, or one billionth for a small `r`. -/
def Binary64.IsCloseTo (x : Binary64) (r : Rat) : Prop :=
  x.isFinite = true ∧ |x.value - r| ≤ 1 / 1000000000 * max 1 |r|

/-- The square root of a square is near its side. -/
theorem sqrt_close {x : Binary64} {n : Nat} (hx : x.isFinite = true) (hxn : x.value = n ^ 2)
    (hn : 1 ≤ n) (hlt : n < 129084) :
    (sqrt x).isFinite = true ∧ |(sqrt x).value - n| ≤ 137 / 68719476736 := by
  obtain ⟨hfinite, hlow, hhigh⟩ := calibration_129083.sqrt_square hx hxn (by omega) hn
  have hn' : (n : Rat) ≤ 129083 := by exact_mod_cast Nat.lt_succ_iff.mp hlt
  push_cast at hhigh
  exact ⟨hfinite, abs_le.mpr ⟨by linarith, by linarith⟩⟩

namespace Coefficients

variable {k : Coefficients}

/-- A discriminant that is a positive integer is above `epsilon`. -/
theorem quadratic_of_pos (hfinite : k.discriminant.isFinite = true) {d : Int}
    (hvalue : k.discriminant.value = d) (hpos : 0 < d) :
    k.quadratic.kind = .positiveDiscriminant ∧
      k.quadratic.solutions = (k.realPair k.discriminant).solutions := by
  have hgreater : epsilon < k.discriminant := by
    rw [lt_iff_value_lt isFinite_epsilon hfinite, hvalue]
    exact lt_of_lt_of_le epsilon_bounds.2 (by exact_mod_cast hpos)
  rcases k.quadratic_cases with ⟨-, hkind, hsolutions⟩ | ⟨hpos', -⟩ | ⟨hpos', -⟩
  · exact ⟨hkind, hsolutions⟩
  · exact absurd hgreater hpos'
  · exact absurd hgreater hpos'

end Coefficients

/-- **Quadratic equations with integer coefficients.** When the square, the product and the difference
of the discriminant are at most `2 ^ 53`, and `4 * a` does not overflow, a positive discriminant gives two
real roots of which the same is known. They are known to be rational exactly when the discriminant is a
square, as long as it is below `126473²`. The roots of a discriminant that is a square below `129084²` are
near the exact ones. -/
theorem Polynomial.solve_ofIntegers {a b c : Int} (ha : a ≠ 0)
    (hquadruple : (4 * ofInt a).isFinite = true) (hb : |b ^ 2| ≤ 2 ^ 53)
    (hac : |4 * a * c| ≤ 2 ^ 53) (hd : |b ^ 2 - 4 * a * c| ≤ 2 ^ 53) (hpos : 0 < b ^ 2 - 4 * a * c) :
    ∃ x₁ x₂ rational, (ofIntegers a b c).solve.kind = .positiveDiscriminant ∧
      (ofIntegers a b c).solve.solutions = [.real ⟨x₁, rational⟩, .real ⟨x₂, rational⟩] ∧
      (b ^ 2 - 4 * a * c < 126473 ^ 2 → (rational = true ↔ IsSquare (b ^ 2 - 4 * a * c))) ∧
      ∀ n : Nat, b ^ 2 - 4 * a * c = n ^ 2 → n < 129084 →
        x₁.IsCloseTo ((-b + n) / (2 * a)) ∧ x₂.IsCloseTo ((-b - n) / (2 * a)) := by
  rw [sq] at hb hd hpos ⊢
  norm_num only at hb hac hd
  have hstands := lowCoefficients_ofIntegers ha hquadruple hb hac
  have hdegree : (ofIntegers a b c).degree = .two :=
    degree_ofIntegers (leading_of_isFinite ha (isFinite_of_isFinite_mul hquadruple).2).2
  obtain ⟨hfinite, hvalue⟩ := hstands.value_discriminant hb hac hd
  obtain ⟨hkind, hsolutions⟩ := Coefficients.quadratic_of_pos hfinite hvalue hpos
  rw [← analysis_of_degree_two hdegree] at hkind hsolutions
  refine ⟨_, _, _, hkind, hsolutions, fun hlt => isPerfectSquare_iff hfinite hvalue hpos hlt,
    fun n hn hlt => ?_⟩
  -- the side of the square is positive, and the linear coefficient is as small as it
  have hn₁ : 1 ≤ n := by
    rcases Nat.eq_zero_or_pos n with rfl | h
    · omega
    · exact h
  have hb' : |b| ≤ 134217728 := by
    by_contra hlarge
    have hsquare : 134217728 * 134217728 < |b| * |b| :=
      mul_lt_mul'' (not_le.mp hlarge) (not_le.mp hlarge) (by norm_num) (by norm_num)
    rw [← abs_mul] at hsquare
    omega
  have hvalue' : (ofIntegers a b c).lowCoefficients.discriminant.value = (n : Rat) ^ 2 := by
    rw [hvalue, hn]
    push_cast
    rfl
  obtain ⟨hsfinite, hsclose⟩ := sqrt_close hfinite hvalue' hn₁ hlt
  have hn' : |(n : Int)| ≤ 134217728 := by
    rw [Nat.abs_cast]
    omega
  refine ⟨hstands.root_close ha hb' hsfinite hn' hsclose, ?_⟩
  have hopposite := hstands.root_close ha hb' (s := -sqrt _) ((isFinite_opposite _).trans hsfinite)
    (m := -n) (by rwa [abs_neg]) (by
      rw [value_opposite, Int.cast_neg, ← neg_sub', abs_neg]
      exact hsclose)
  rw [Int.cast_neg, ← sub_eq_add_neg] at hopposite
  exact hopposite

/-- The equation `X^2 - 5 X + 6 = 0` has the discriminant `1²` and the rational roots `3` and `2`. -/
theorem Polynomial.solve_ofIntegers_three_two :
    (4 * ofInt 1).isFinite = true ∧
      ∃ x₁ x₂, (ofIntegers 1 (-5) 6).solve.solutions = [.real ⟨x₁, true⟩, .real ⟨x₂, true⟩] ∧
        x₁.IsCloseTo 3 ∧ x₂.IsCloseTo 2 := by
  have hquadruple : (4 * ofInt 1).isFinite = true := by decide +kernel
  obtain ⟨x₁, x₂, rational, -, hsolutions, hrational, hclose⟩ :=
    solve_ofIntegers (a := 1) (b := -5) (c := 6) (by norm_num) hquadruple (by norm_num) (by norm_num)
      (by norm_num) (by norm_num)
  obtain ⟨hfirst, hsecond⟩ := hclose 1 (by norm_num) (by norm_num)
  obtain rfl : rational = true := (hrational (by norm_num)).mpr ⟨1, by norm_num⟩
  norm_num at hfirst hsecond
  exact ⟨hquadruple, x₁, x₂, hsolutions, hfirst, hsecond⟩

/-- The bounds are exact: the roots of `X^2 + 126473 X = 0` are not known to be rational, the root zero of
`X^2 + 129084 X = 0` is found more than one billionth away, and `2 ^ 1022 X^2 + X = 0`, where `4 * a` is
infinite, seems to have no real roots. -/
theorem Polynomial.solve_ofIntegers_beyond :
    (ofIntegers 1 126473 0).solve.solutions =
        [.real ⟨ofBits 0x3e01400000000000, false⟩, .real ⟨ofBits 0xc0fee09000000022, false⟩] ∧
      (∃ x₁ x₂ rational, (ofIntegers 1 129084 0).solve.solutions =
          [.real ⟨x₁, rational⟩, .real ⟨x₂, rational⟩] ∧ 1 / 1000000000 < x₁.value) ∧
      (ofIntegers (2 ^ 1022) 1 0).solve.kind = .negativeDiscriminant := by
  refine ⟨by decide +kernel, ⟨ofBits 0x3e11400000000000, ofBits 0xc0ff83c000000045, false,
    by decide +kernel, ?_⟩, by decide +kernel⟩
  decide +kernel

end Quadra
