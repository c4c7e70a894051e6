import Quadra.Proofs.Numeric.Newton

set_option autoImplicit false

/-!
# The error of the square root

Twenty steps are enough for the numbers up to about `1.6 * 10 ^ 10`: on the squares up to `126472²` the
square root is off by at most 68 units of the last place, which is less than `epsilon`, and on those up
to `129083²` by at most 137.
-/

namespace Quadra.Numeric

open Binary64

/-! ## The last step

At the square of an integer `n` of 17 bits, the guess `g` and its cofactor are multiples of the unit
`2 ^ (-36)`, and the cofactor exceeds `2 n - g` by `(g - n)² / g`. When this is less than `K + 1/2` units,
the cofactor is rounded to at most `K` units above `2 n - g`, and the half of the sum to `K / 2` units
above `n`, a half unit to the even neighbour. -/

theorem sq_div_eq {g n : Rat} (hg : 0 < g) : n ^ 2 / g = 2 * n - g + (g - n) ^ 2 / g := by
  field_simp
  ring

/-- The cofactor is rounded to the grid of its binade. -/
theorem value_cofactor_le {x g : Binary64} {n K : Nat} (hx : x.isFinite = true)
    (hg : g.isFinite = true) (hxn : x.value = n ^ 2) (hlow : 65536 ≤ g.value)
    (hhigh : g.value < 131072) (hqlow : 65536 ≤ x.value / g.value)
    (hqhigh : x.value / g.value < 131072)
    (hclose : (g.value - n) ^ 2 / g.value < (K + 1 / 2) / 68719476736) :
    (x / g).isFinite = true ∧ 0 ≤ (x / g).value ∧
      (x / g).value ≤ 2 * n - g.value + K / 68719476736 := by
  have hunit : (2 : Rat) ^ (-36 : Int) = 1 / 68719476736 := by norm_num
  have hbinade : (2 : Rat) ^ ((-36 : Int) + 52) = 65536 ∧ (2 : Rat) ^ ((-36 : Int) + 53) = 131072 := by
    norm_num
  have hgpos : 0 < g.value := by linarith
  have hqpos : 0 < x.value / g.value := by linarith
  have hrange : |x.value / g.value| < overflowBound :=
    lt_overflowBound_of_moderate (by rw [abs_of_pos hqpos]; linarith)
  have hquotient := rounds_div hx hg hgpos.ne' hrange
  obtain ⟨j, hj⟩ := exists_eq_of_binade hg (by rwa [hbinade.1]) (by rwa [hbinade.2]) (by norm_num)
  rw [hunit] at hj
  refine ⟨hquotient.isFinite, hquotient.nonneg hqpos.le, ?_⟩
  rw [hquotient.value_eq, value_nearest_of_binade (by rwa [hbinade.1]) (by rwa [hbinade.2])
    (by norm_num) (lt_of_le_of_lt (le_abs_self _) hrange), hunit]
  have hinteger : nearestInteger (x.value / g.value / (1 / 68719476736)) ≤
      137438953472 * n - j + K := by
    refine nearestInteger_le ?_
    rw [hxn, sq_div_eq hgpos]
    push_cast
    linarith
  have hcast : (nearestInteger (x.value / g.value / (1 / 68719476736)) : Rat) ≤
      137438953472 * n - j + K := by exact_mod_cast hinteger
  linarith

section

variable {n K : Nat}

/-- Half of at most `1024` units, rounded, is small. -/
theorem nearestInteger_half_bounds (hK : K ≤ 1024) :
    (0 : Rat) ≤ nearestInteger (K / 2) ∧ (nearestInteger (K / 2) : Rat) ≤ 512 := by
  have hlow := nearestInteger_mono (show ((0 : Int) : Rat) ≤ K / 2 by push_cast; positivity)
  have hhigh := nearestInteger_mono (show (K / 2 : Rat) ≤ ((512 : Int) : Rat) by
    have hK' : (K : Rat) ≤ 1024 := by exact_mod_cast hK
    push_cast
    linarith)
  rw [nearestInteger_intCast] at hlow hhigh
  exact ⟨by exact_mod_cast hlow, by exact_mod_cast hhigh⟩

variable (hn : 65537 ≤ n) (hn' : n ≤ 131070) (hK : K ≤ 1024)

include hn hn' hK

/-- The sum of the guess and its cofactor is rounded on a grid of twice the unit. -/
theorem value_sum_le {g q : Binary64} (hg : g.isFinite = true) (hq : q.isFinite = true)
    (hg₀ : 0 ≤ g.value) (hq₀ : 0 ≤ q.value) (h : g.value + q.value ≤ 2 * n + K / 68719476736) :
    (g + q).isFinite = true ∧
      (g + q).value ≤ 2 * n + nearestInteger (K / 2) / 34359738368 := by
  have hnlow : (65537 : Rat) ≤ n := by exact_mod_cast hn
  have hnhigh : (n : Rat) ≤ 131070 := by exact_mod_cast hn'
  have hK' : (K : Rat) ≤ 1024 := by exact_mod_cast hK
  have hK₀ : (0 : Rat) ≤ K := Nat.cast_nonneg K
  have hunit : (2 : Rat) ^ (-35 : Int) = 1 / 34359738368 := by norm_num
  have hbinade : (2 : Rat) ^ ((-35 : Int) + 52) = 131072 ∧ (2 : Rat) ^ ((-35 : Int) + 53) = 262144 := by
    norm_num
  set bound : Rat := 2 * n + K / 68719476736 with hbound
  have hlow : 131072 ≤ bound := by linarith
  have hhigh : bound < 262144 := by linarith
  have hrange : bound < overflowBound := lt_overflowBound_of_moderate (by linarith)
  have hsum := rounds_add hg hq
    (lt_overflowBound_of_moderate (by rw [abs_of_nonneg (by linarith)]; linarith))
  have hmono := value_nearest_mono h hsum.inRange (by rwa [abs_of_pos (by linarith)])
  have hgrid : bound / (1 / 34359738368) = 2 * ((34359738368 * n : Int) : Rat) + K / 2 := by
    push_cast
    linarith
  rw [← hsum.value_eq, value_nearest_of_binade (by rwa [hbinade.1]) (by rwa [hbinade.2])
    (by norm_num) hrange, hunit, hgrid, nearestInteger_even_add] at hmono
  push_cast at hmono
  exact ⟨hsum.isFinite, by linarith⟩

/-- The half of the sum is again on the grid of the unit. -/
theorem value_half_le {s : Binary64} (hs : s.isFinite = true)
    (h : s.value ≤ 2 * n + nearestInteger (K / 2) / 34359738368) :
    (s / 2).value ≤ n + nearestInteger (K / 2) / 68719476736 := by
  have hnlow : (65537 : Rat) ≤ n := by exact_mod_cast hn
  have hnhigh : (n : Rat) ≤ 131070 := by exact_mod_cast hn'
  obtain ⟨hround₀, hround⟩ := nearestInteger_half_bounds hK
  have hbinade : (2 : Rat) ^ ((-36 : Int) + 52) = 65536 ∧ (2 : Rat) ^ ((-36 : Int) + 53) = 131072 := by
    norm_num
  have hgrid : ((68719476736 * n + nearestInteger (K / 2) : Int) : Rat) * 2 ^ (-36 : Int) =
      n + nearestInteger (K / 2) / 68719476736 := by
    rw [show (2 : Rat) ^ (-36 : Int) = 1 / 68719476736 by norm_num]
    push_cast
    ring
  obtain ⟨y, hy, hyvalue⟩ :=
    exists_value_of_binade (n := 68719476736 * n + nearestInteger (K / 2)) (e := -36)
      (by rw [hgrid, hbinade.1]; linarith) (by rw [hgrid, hbinade.2]; linarith) (by norm_num)
      (lt_overflowBound_of_moderate (by rw [hgrid]; linarith))
  rw [hgrid] at hyvalue
  rw [← hyvalue]
  exact (rounds_half hs).le_of_le hy (by linarith)

end

/-- The last step at the square of an integer. -/
theorem value_refine_square_le {x g : Binary64} {n K : Nat} (hx : x.isFinite = true)
    (hg : g.isFinite = true) (hxn : x.value = n ^ 2) (hn : 65537 ≤ n) (hn' : n ≤ 131070)
    (hlow : 65536 ≤ g.value) (hhigh : g.value < 131072) (hqlow : 65536 ≤ x.value / g.value)
    (hqhigh : x.value / g.value < 131072) (hK : K ≤ 1024)
    (hclose : (g.value - n) ^ 2 / g.value < (K + 1 / 2) / 68719476736) :
    (refine x g).value ≤ n + nearestInteger (K / 2) / 68719476736 := by
  obtain ⟨hqfinite, hq₀, hq⟩ := value_cofactor_le hx hg hxn hlow hhigh hqlow hqhigh hclose
  obtain ⟨hsfinite, hs⟩ :=
    value_sum_le hn hn' hK hg hqfinite (by linarith) hq₀ (by linarith)
  exact value_half_le hn hn' hK hsfinite hs

/-! ## Squares -/

section

variable {start : Rat} {x : Binary64}

/-- The square root of a number of moderate size. -/
theorem sqrt_bounds (h : Moderate start x) :
    (sqrt x).isFinite = true ∧ 0 ≤ (sqrt x).value ∧
      (1 - 6 / 4503599627370496) * x.value ≤ (sqrt x).value ^ 2 ∧
      (sqrt x).value ^ 2 ≤ envelope start 20 * x.value := by
  rw [sqrt_eq_guess h.isFinite (by linarith [h.least_le])]
  obtain ⟨hsized, hge, hle⟩ := guessInvariant h 20
  exact ⟨hsized.isFinite, by linarith [hsized.least_le], hge, hle⟩

/-- A root whose square is at most slightly below a square is at most slightly below its side. -/
theorem le_of_ratio_ge {g : Rat} {n : Nat} (hg : 0 ≤ g)
    (h : (1 - 6 / 4503599627370496) * (n : Rat) ^ 2 ≤ g ^ 2) :
    (1 - 1 / 562949953421312) * n ≤ g := by
  refine le_of_pow_le_pow_left₀ two_ne_zero hg (le_trans ?_ h)
  rw [mul_pow]
  exact mul_le_mul_of_nonneg_right (by norm_num) (sq_nonneg _)

theorem le_of_ratio_le {g t r : Rat} {n : Nat} (hr : 0 ≤ r) (ht : t ≤ r ^ 2)
    (h : g ^ 2 ≤ t * (n : Rat) ^ 2) : g ≤ r * n := by
  refine le_of_pow_le_pow_left₀ two_ne_zero (by positivity) (le_trans h ?_)
  rw [mul_pow]
  exact mul_le_mul_of_nonneg_right ht (sq_nonneg _)

end

/-- Bounds `r` and `s` on the last guess but one and on the last guess at the root of a square up to
`N²`, as multiples of its side, and the number of units that the root is off when the cofactor of the
former is rounded up by at most `K` units. -/
structure Calibration (N K units : Nat) (r s : Rat) : Prop where
  six_le : 6 ≤ N
  le_limit : N ≤ 131070
  cofactor_le : K ≤ 1024
  round_eq : nearestInteger (K / 2) = units
  envelope_le : envelope (N ^ 2 / 4 + 1) 19 ≤ r ^ 2
  envelope_le' : envelope (N ^ 2 / 4 + 1) 20 ≤ s ^ 2
  margin : 1 + 1 / 562949953421312 ≤ r
  le_margin : r ≤ 1 + 1 / 1000000
  one_le : 1 ≤ s
  close : (r - 1) ^ 2 * N < (K + 1 / 2) / 68719476736 * (1 - 1 / 562949953421312)
  coarse : (s - 1) * 100000 ≤ units / 68719476736

section

variable {N K units : Nat} {r s : Rat} {x : Binary64} {n : Nat}

theorem Calibration.moderate (h : Calibration N K units r s) (hx : x.isFinite = true)
    (hlow : 1 ≤ x.value) (hhigh : x.value ≤ N ^ 2) : Moderate (N ^ 2 / 4 + 1) x := by
  have hN : (6 : Rat) ≤ N := by exact_mod_cast h.six_le
  have hN' : (N : Rat) ≤ 131070 := by exact_mod_cast h.le_limit
  have hsquare : (6 : Rat) ^ 2 ≤ N ^ 2 := pow_le_pow_left₀ (by norm_num) hN 2
  have hsquare' : (N : Rat) ^ 2 ≤ 131070 ^ 2 := pow_le_pow_left₀ (by linarith) hN' 2
  norm_num at hsquare hsquare'
  have hstart : (N : Rat) ^ 2 / 4 + 1 ≤ (N ^ 2 / 4 + 1) * x.value := le_mul_of_one_le_right (by linarith) hlow
  exact ⟨hx, by linarith, by linarith, by linarith, by linarith, by linarith⟩

section

variable (h : Calibration N K units r s) (hx : x.isFinite = true) (hxn : x.value = n ^ 2)
  (hnN : n ≤ N)

include h hx hxn hnN

theorem Calibration.moderate_square (hn : 1 ≤ n) : Moderate (N ^ 2 / 4 + 1) x := by
  have hone : (1 : Rat) ≤ n := by exact_mod_cast hn
  have hle : (n : Rat) ≤ N := by exact_mod_cast hnN
  refine h.moderate hx ?_ ?_ <;> rw [hxn]
  · exact one_le_pow₀ hone
  · exact pow_le_pow_left₀ (by linarith) hle 2

/-- Far below the bound the envelope itself is close enough. -/
theorem Calibration.sqrt_square_of_small (hn : 1 ≤ n) (hsmall : n ≤ 100000) :
    (sqrt x).value ≤ n + units / 68719476736 := by
  have hn' : (n : Rat) ≤ 100000 := by exact_mod_cast hsmall
  obtain ⟨-, -, -, hupper⟩ := sqrt_bounds (h.moderate_square hx hxn hnN hn)
  rw [hxn] at hupper
  calc (sqrt x).value ≤ s * n := le_of_ratio_le (by linarith [h.one_le]) h.envelope_le' hupper
    _ = n + (s - 1) * n := by ring
    _ ≤ n + (s - 1) * 100000 :=
        add_le_add_right (mul_le_mul_of_nonneg_left hn' (sub_nonneg.mpr h.one_le)) _
    _ ≤ n + units / 68719476736 := add_le_add_right h.coarse _

/-- The last guess but one is near the side of the square. -/
theorem Calibration.guess_bounds (hn : 1 ≤ n) :
    (guess x 19).isFinite = true ∧ (1 - 1 / 562949953421312) * (n : Rat) ≤ (guess x 19).value ∧
      (guess x 19).value ≤ r * n := by
  obtain ⟨hsized, hgge, hgle⟩ := guessInvariant (h.moderate_square hx hxn hnN hn) 19
  rw [hxn] at hgge hgle
  exact ⟨hsized.isFinite, le_of_ratio_ge (by linarith [hsized.least_le]) hgge,
    le_of_ratio_le (by linarith [h.margin]) h.envelope_le hgle⟩

/-- Near the bound the last guess but one is followed through the last step. -/
theorem Calibration.sqrt_square_of_large (hlarge : 100000 ≤ n) :
    (sqrt x).value ≤ n + units / 68719476736 := by
  have hn : (100000 : Rat) ≤ n := by exact_mod_cast hlarge
  have hle : (n : Rat) ≤ N := by exact_mod_cast hnN
  have hlimit := h.le_limit
  have hN : (N : Rat) ≤ 131070 := by exact_mod_cast hlimit
  obtain ⟨hgfinite, hglow, hghigh⟩ := h.guess_bounds hx hxn hnN (by omega)
  have hlast : sqrt x = refine x (guess x 19) :=
    sqrt_eq_guess hx (by rw [hxn]; exact pow_pos (by linarith) 2)
  have hround : (nearestInteger (K / 2) : Rat) = units := by rw [h.round_eq, Int.cast_natCast]
  rw [hlast, ← hround]
  set g := guess x 19
  have hgpos : 0 < g.value := by linarith
  have hghigh' : g.value ≤ (1 + 1 / 1000000) * n :=
    le_trans hghigh (mul_le_mul_of_nonneg_right h.le_margin (by linarith))
  have hsquare : 100000 * (n : Rat) ≤ n ^ 2 ∧ (n : Rat) ^ 2 ≤ 131070 * n := by
    rw [sq]
    exact ⟨mul_le_mul_of_nonneg_right hn (by linarith),
      mul_le_mul_of_nonneg_right (by linarith) (by linarith)⟩
  have hdistance : |g.value - n| ≤ (r - 1) * n := by
    have hmargin : 1 / 562949953421312 * (n : Rat) ≤ (r - 1) * n :=
      mul_le_mul_of_nonneg_right (by linarith [h.margin]) (by linarith)
    rw [abs_le]
    constructor <;> linarith
  refine value_refine_square_le hx hgfinite hxn (by omega) (by omega) (by linarith) (by linarith)
    ?_ ?_ h.cofactor_le ?_
  · rw [hxn, le_div_iff₀ hgpos]
    linarith
  · rw [hxn, div_lt_iff₀ hgpos]
    linarith
  · rw [div_lt_iff₀ hgpos]
    calc (g.value - n) ^ 2
        ≤ ((r - 1) * n) ^ 2 := by
          rw [← sq_abs]
          exact pow_le_pow_left₀ (abs_nonneg _) hdistance 2
      _ = (r - 1) ^ 2 * n * n := by ring
      _ ≤ (r - 1) ^ 2 * N * n := by
          refine mul_le_mul_of_nonneg_right ?_ (by linarith)
          exact mul_le_mul_of_nonneg_left hle (sq_nonneg _)
      _ < (K + 1 / 2) / 68719476736 * (1 - 1 / 562949953421312) * n :=
          mul_lt_mul_of_pos_right h.close (by linarith)
      _ = (K + 1 / 2) / 68719476736 * ((1 - 1 / 562949953421312) * n) := by ring
      _ ≤ (K + 1 / 2) / 68719476736 * g.value :=
          mul_le_mul_of_nonneg_left hglow (by positivity)

/-- The square root of a square is off by at most this number of units. -/
theorem Calibration.sqrt_square (hn : 1 ≤ n) :
    (sqrt x).isFinite = true ∧ (1 - 1 / 562949953421312) * n ≤ (sqrt x).value ∧
      (sqrt x).value ≤ n + units / 68719476736 := by
  obtain ⟨hfinite, hnonneg, hge, -⟩ := sqrt_bounds (h.moderate_square hx hxn hnN hn)
  rw [hxn] at hge
  refine ⟨hfinite, le_of_ratio_ge hnonneg hge, ?_⟩
  rcases Nat.le_total n 100000 with hsmall | hlarge
  · exact h.sqrt_square_of_small hx hxn hnN hn hsmall
  · exact h.sqrt_square_of_large hx hxn hnN hlarge

end

end

/-- Up to `126472²` the root of a square is off by at most 68 units. -/
theorem calibration_126472 :
    Calibration 126472 137 68 (1 + 125771416 / 1000000000000000)
      (1 + 88 / 10000000000000000) := by
  constructor <;> decide +kernel

/-- Up to `129083²` the root of a square is off by at most 137 units. -/
theorem calibration_129083 :
    Calibration 129083 274 137 (1 + 175892685 / 1000000000000000)
      (1 + 164 / 10000000000000000) := by
  constructor <;> decide +kernel

end Quadra.Numeric
