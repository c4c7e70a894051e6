import Quadra.Proofs.Fraction.Faithful

set_option autoImplicit false

/-!
# Exact convergents

As long as the parts of a convergent are below `2 ^ 53` they are the continuants of the terms in front of
it exactly. So their cross product is `1` or `-1`, alternately, and a fraction is made of them as they are.
This holds for every number, every tolerance and every number of terms: where the parts of a number that
is too small become `nan`, they are not below `2 ^ 53`.
-/

namespace Quadra.Fraction

open Binary64 Numeric

/-! ## Every number -/

section

variable {x tolerance : Binary64} {as : List Binary64} {c : Convergents} (hc : Reaches x tolerance as c)

include hc

/-- The second numerator of a number whose reciprocal is infinite is `nan`, and so are all behind it. -/
theorem Reaches.follows_of_tiny (hx : Tiny x) :
    (∃ ns, Follows as ns c) ∧ c = (Convergents.start x).advance ∨ c.h = nan ∧ c.rest = nan := by
  induction hc with
  | first => exact .inl ⟨⟨_, follows_first hx.isFinite hx.pos.le⟩, rfl⟩
  | @next as c _ _ _ ih =>
      right
      rcases ih with ⟨-, rfl⟩ | ⟨-, hrest⟩
      · rw [hx.start_advance, hx.second_advance]
        exact ⟨rfl, rfl⟩
      · have hreciprocal : 1 / c.rest = nan := by rw [hrest, one_div_nan]
        rw [advance_of_nan (c := { c with rest := 1 / c.rest }) hreciprocal]
        exact ⟨rfl, rfl⟩

/-- A state of any number keeps track of its terms, or its numerator is `nan`. -/
theorem Reaches.follows_or_nan (hx : x.isFinite = true) (hx₀ : 0 ≤ x.value) :
    (∃ ns, Follows as ns c) ∨ c.h = nan := by
  by_cases hlarge : x.value = 0 ∨ 1 / 2 ^ (1024 : Int) < x.value
  · obtain ⟨ns, hfollows, -⟩ := hc.follows_of_large hx hx₀ hlarge
    exact .inl ⟨ns, hfollows⟩
  · obtain ⟨hne, hle⟩ := not_or.mp hlarge
    have htiny : Tiny x := ⟨hx, lt_of_le_of_ne hx₀ (Ne.symm hne), not_lt.mp hle⟩
    rcases hc.follows_of_tiny htiny with ⟨hfollows, -⟩ | ⟨hnan, -⟩
    · exact .inl hfollows
    · exact .inr hnan

end

/-! ## Parts below `2 ^ 53` -/

/-- The convergents behind the terms `as` of the expansion of `|x|` are the continuants `w` exactly, and
their parts are left as they are where a fraction is made of them. -/
structure Exact (x : Binary64) (as : List Binary64) (c : Convergents) (w : Continuants) : Prop where
  terms : ∃ ns, AreTerms as ns ∧ w = .ofTerms ns
  represents : c.Represents w c.rest.value
  reads : Reads c w.h w.k
  cross : (w.h * w.k₀ - w.h₀ * w.k : Int) = (-1) ^ as.length
  k₀_le : w.k₀ ≤ w.k
  coprime : Nat.Coprime w.h w.k
  reduce_eq : reduce ((if x < 0 then -1 else 1) * c.h.toInt64) c.k.toUInt64 =
    ⟨(if x < 0 then -1 else 1) * c.h.toInt64, c.k.toUInt64⟩

/-- Parts that are read, and have no common divisor, are left as they are. -/
theorem Reads.reduce_eq {c : Convergents} {h k : Nat} (hc : Reads c h k) (hcoprime : Nat.Coprime h k)
    (x : Binary64) : reduce ((if x < 0 then -1 else 1) * c.h.toInt64) c.k.toUInt64 =
      ⟨(if x < 0 then -1 else 1) * c.h.toInt64, c.k.toUInt64⟩ := by
  have hnumer : c.h.toInt64 = .ofInt h := by
    rw [← hc.numer_word, Int64.ofInt_toInt]
  rw [hnumer, sign_mul_ofInt, toUInt64_of_natural hc.denom.1 hc.denom.2 hc.denom_lt]
  exact reduce_of_coprime (abs_signed_lt hc.numer_lt) hc.one_le_denom hc.denom_lt
    (by rwa [natAbs_signed])

theorem Follows.exact {as : List Binary64} {ns : List Nat} {c : Convergents} (hc : Follows as ns c)
    (hh : c.h < 9007199254740992) (hk : c.k < 9007199254740992) (x : Binary64) :
    Exact x as c (.ofTerms ns) := by
  have hh₁ := hc.h.lt_of_lt hh
  have hk₁ := hc.k.lt_of_lt hk
  obtain ⟨hk_pos, hk₀, hh₀⟩ := hc.ordered
  have hreads : Reads c (Continuants.ofTerms ns).h (Continuants.ofTerms ns).k := by
    apply Reads.of_integers (hc.h.eq_of_lt hh₁) (hc.k.eq_of_lt hk₁) _ hk_pos
    · omega
    · omega
  have hcoprime := (Continuants.unimodular_ofTerms ns).coprime
  exact {
    terms := ⟨ns, hc.terms, rfl⟩
    represents := {
      h := hc.h.eq_of_lt hh₁
      h₀ := hc.h₀.eq_of_lt (by omega)
      k := hc.k.eq_of_lt hk₁
      k₀ := hc.k₀.eq_of_lt (by omega)
      rest := ⟨hc.rest, rfl⟩ }
    reads := hreads
    cross := hc.terms.integers.length_eq ▸ Continuants.cross_ofTerms ns
    k₀_le := hk₀
    coprime := hcoprime
    reduce_eq := hreads.reduce_eq hcoprime x }

/-- **Convergents are exact below `2 ^ 53`.** Every state that the expansion of a number reaches, with any
tolerance and behind any number of terms, has the continuants of its terms as its parts, if the convergent
has parts below `2 ^ 53`; and the state at which it ends is reached within the number of terms, so that
the parts of the fraction are those of the convergent. -/
theorem convergents_exact {x tolerance : Binary64} {terms : Nat} (hx : x.isFinite = true)
    (hterms : 1 ≤ terms) :
    (∀ as c, Reaches (abs x) tolerance as c → c.h < 9007199254740992 → c.k < 9007199254740992 →
      ∃ w, Exact x as c w) ∧
    ∃ as c rest, Reaches (abs x) tolerance as c ∧ as.length ≤ terms ∧
      expand (abs x) tolerance terms (.start (abs x)) = { c with rest := rest } ∧
      ∀ w, Exact x as c w → ¬ abs (x - round x) < tolerance →
        approximate x tolerance terms = .ok ⟨.ofInt (signed x w.h), .ofNat w.k⟩ := by
  have hnonneg : 0 ≤ (abs x).value := by
    rw [value_abs hx]
    exact abs_nonneg _
  constructor
  · intro as c hc hh hk
    rcases hc.follows_or_nan (isFinite_abs hx) hnonneg with ⟨ns, hfollows⟩ | hnan
    · exact ⟨_, hfollows.exact hh hk x⟩
    · rw [hnan] at hh
      exact absurd hh (by decide +kernel)
  · obtain ⟨as, c, rest, hc, hlength, hexpand⟩ := exists_reaches (abs x) tolerance hterms
    refine ⟨as, c, rest, hc, hlength, hexpand, ?_⟩
    intro w hw hfar
    obtain ⟨hh, hk, hh₁, hk₁, hk₂, -, -⟩ := hw.reads
    rw [approximate_of_far hx hfar hexpand hh hk hk₁ hk₂ hw.coprime, if_neg (not_le.mpr hh₁)]

/-- The number nearest to a third, without any tolerance: its terms are `0` and `3`. -/
theorem convergents_exact_third : (ofBits 4599676419421066581).isFinite = true ∧ 1 ≤ 40 ∧
    Reaches (abs (ofBits 4599676419421066581)) 0 [0, 3] ⟨1, 0, 3, 1, 0⟩ ∧
    (1 : Binary64) < 9007199254740992 ∧ (3 : Binary64) < 9007199254740992 ∧
    ∃ w, Exact (ofBits 4599676419421066581) [0, 3] ⟨1, 0, 3, 1, 0⟩ w := by
  have hreaches : Reaches (abs (ofBits 4599676419421066581)) 0 [0, 3] ⟨1, 0, 3, 1, 0⟩ := by
    have hfirst : Reaches (abs (ofBits 4599676419421066581)) 0 _ _ := .first
    have hsecond := hfirst.next (by decide +kernel) (by decide +kernel)
    convert hsecond using 1
    · decide +kernel
    · rw [Convergents.advance, Convergents.mk.injEq]
      decide +kernel
  refine ⟨by decide +kernel, by decide, hreaches, by decide +kernel, by decide +kernel, ?_⟩
  exact (@convergents_exact _ 0 40 (by decide +kernel) (by decide)).1 _ _ hreaches
    (by decide +kernel) (by decide +kernel)

end Quadra.Fraction
