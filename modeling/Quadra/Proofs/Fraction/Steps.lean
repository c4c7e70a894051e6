import Quadra.Proofs.Binary64.Whole
import Quadra.Proofs.Fraction.Convergents

set_option autoImplicit false

/-!
# Steps of an expansion

The states that an expansion passes through, each with the terms that lead to it. Every part keeps track of
a continuant of the terms through all steps: it is the continuant, or both are at least `2 ^ 53`. So nothing
need be said about the sizes of the parts before, and no bound on the number of terms is needed either.
-/

namespace Quadra.Fraction

open Binary64 Numeric

/-! ## States that are reached -/

/-- The expansion of `x` takes these terms, and then has these convergents. It goes on behind a convergent
that is not within the tolerance while something is left. -/
inductive Reaches (x tolerance : Binary64) : List Binary64 → Convergents → Prop
  | first : Reaches x tolerance [floor x] (Convergents.start x).advance
  | next {as : List Binary64} {c : Convergents} (hc : Reaches x tolerance as c)
      (hfar : ¬ abs (x - c.h / c.k) ≤ x * tolerance) (hrest : c.rest.isZero = false) :
      Reaches x tolerance (as ++ [floor (1 / c.rest)]) (Convergents.advance { c with rest := 1 / c.rest })

/-- What becomes of a reached state with so many terms more. -/
def resume (x tolerance : Binary64) (more : Nat) (c : Convergents) : Convergents :=
  if abs (x - c.h / c.k) ≤ x * tolerance then c
  else if c.rest.isZero then c
  else expand x tolerance more { c with rest := 1 / c.rest }

section

variable {x tolerance : Binary64} {as : List Binary64} {c : Convergents}

theorem expand_succ (more : Nat) (c : Convergents) :
    expand x tolerance (more + 1) c = resume x tolerance more c.advance := rfl

/-- A resumed expansion has ended, or it goes on with the reciprocal of what is left. -/
theorem resume_cases (more : Nat) (c : Convergents) :
    resume x tolerance more c = c ∨
      ¬ abs (x - c.h / c.k) ≤ x * tolerance ∧ c.rest.isZero = false ∧
        resume x tolerance more c = expand x tolerance more { c with rest := 1 / c.rest } := by
  unfold resume
  by_cases hnear : abs (x - c.h / c.k) ≤ x * tolerance
  · left
    simp only [if_pos hnear]
  · by_cases hrest : c.rest.isZero = true
    · left
      simp only [if_neg hnear, if_pos hrest]
    · right
      refine ⟨hnear, Bool.not_eq_true _ ▸ hrest, ?_⟩
      simp only [if_neg hnear, if_neg hrest]

/-- The state at which it ends is reached, up to what is left: after the last of all terms the reciprocal
of what is left is still taken. -/
theorem Reaches.exists_resume (h : Reaches x tolerance as c) (more : Nat) :
    ∃ as' c' rest, Reaches x tolerance as' c' ∧ as'.length ≤ as.length + more ∧
      resume x tolerance more c = { c' with rest := rest } := by
  induction more generalizing as c with
  | zero =>
      rcases resume_cases (x := x) 0 c with hend | ⟨-, -, hlast⟩
      · exact ⟨as, c, c.rest, h, le_rfl, hend⟩
      · exact ⟨as, c, 1 / c.rest, h, le_rfl, hlast⟩
  | succ more ih =>
      rcases resume_cases (x := x) (more + 1) c with hend | ⟨hfar, hrest, hnext⟩
      · exact ⟨as, c, c.rest, h, Nat.le_add_right _ _, hend⟩
      · obtain ⟨as', c', rest, hc', hlength, hresume⟩ := ih (h.next hfar hrest)
        rw [List.length_append, List.length_singleton] at hlength
        refine ⟨as', c', rest, hc', by omega, ?_⟩
        rw [hnext, expand_succ]
        exact hresume

/-- The expansion ends at a state that is reached with at most that many terms. -/
theorem exists_reaches (x tolerance : Binary64) {terms : Nat} (hterms : 1 ≤ terms) :
    ∃ as c rest, Reaches x tolerance as c ∧ as.length ≤ terms ∧
      expand x tolerance terms (.start x) = { c with rest := rest } := by
  obtain ⟨more, rfl⟩ := Nat.exists_eq_add_of_le' hterms
  have hfirst : Reaches x tolerance [floor x] (Convergents.start x).advance := .first
  obtain ⟨as, c, rest, hc, hlength, hresume⟩ := hfirst.exists_resume more
  rw [List.length_singleton, Nat.add_comm] at hlength
  exact ⟨as, c, rest, hc, hlength, hresume⟩

end

/-! ## Continuants of terms -/

namespace Continuants

/-- The continuants of these terms. -/
def ofTerms (ns : List Nat) : Continuants := ns.foldl advance start

theorem ofTerms_append (ns : List Nat) (n : Nat) : ofTerms (ns ++ [n]) = (ofTerms ns).advance n := by
  rw [ofTerms, List.foldl_append]
  rfl

/-- The sign of the cross product alternates. -/
theorem cross_foldl (ns : List Nat) (w : Continuants) :
    (ns.foldl advance w).cross = (-1) ^ ns.length * w.cross := by
  induction ns generalizing w with
  | nil => rw [List.foldl_nil, List.length_nil, pow_zero, one_mul]
  | cons n ns ih =>
      rw [List.foldl_cons, ih, cross_advance, List.length_cons, pow_succ]
      ring

theorem cross_ofTerms (ns : List Nat) : (ofTerms ns).cross = (-1) ^ ns.length := by
  rw [ofTerms, cross_foldl]
  exact mul_one _

theorem unimodular_ofTerms (ns : List Nat) : (ofTerms ns).Unimodular := by
  rw [Unimodular, cross_ofTerms, abs_pow, abs_neg, abs_one, one_pow]

/-- The denominators are in order, and so are the numerators but for a first term that is zero. -/
structure Ordered (w : Continuants) : Prop where
  one_le_k : 1 ≤ w.k
  k₀_le : w.k₀ ≤ w.k
  h₀_le : w.h₀ ≤ max w.h 1

theorem ordered_start_advance (n : Nat) : (start.advance n).Ordered := by
  constructor <;> simp [advance, start]

theorem Ordered.advance {w : Continuants} (hw : w.Ordered) {n : Nat} (hn : 1 ≤ n) :
    (w.advance n).Ordered := by
  have hk : w.k ≤ n * w.k := Nat.le_mul_of_pos_left _ hn
  have hh : w.h ≤ n * w.h := Nat.le_mul_of_pos_left _ hn
  obtain ⟨h₁, h₂, h₃⟩ := hw
  constructor <;> simp only [Continuants.advance] <;> omega

end Continuants

/-! ## Terms and what they leave -/

/-- The floor of a number that is not negative is an integer. -/
theorem exists_floor_eq_natCast {x : Binary64} (hx : x.isFinite = true) (hx₀ : 0 ≤ x.value) :
    (floor x).isFinite = true ∧ (floor x).value = (x.value.floor.toNat : Nat) := by
  obtain ⟨hfinite, hvalue⟩ := floor_spec hx
  refine ⟨hfinite, ?_⟩
  have hnonneg : 0 ≤ x.value.floor := Rat.le_floor_iff.mpr (by exact_mod_cast hx₀)
  rw [hvalue]
  exact_mod_cast (Int.toNat_of_nonneg hnonneg).symm

theorem one_le_toNat_floor {q : Rat} (h : 1 ≤ q) : 1 ≤ q.floor.toNat := by
  have hone : 1 ≤ q.floor := Rat.le_floor_iff.mpr (by exact_mod_cast h)
  omega

/-- What is left above `2 ^ (-1024)` behind a term has a reciprocal of at least one. -/
theorem reciprocal_of_fract {x : Binary64} (hx : x.isFinite = true) (hx₀ : 0 ≤ x.value)
    (hlow : 1 / 2 ^ (1024 : Int) < x.value - x.value.floor) :
    (1 / (x - floor x)).isFinite = true ∧ 1 ≤ (1 / (x - floor x)).value := by
  obtain ⟨hrest, hvalue⟩ := sub_floor hx hx₀
  have hfloor : x.value < x.value.floor + 1 := by exact_mod_cast Rat.lt_floor_add_one x.value
  rw [← hvalue] at hlow
  exact reciprocal_of_gt hrest hlow (by linarith)

theorem tiny_lt_of_le {q : Rat} (h : 1 / 4503599627370496 ≤ q) : 1 / 2 ^ (1024 : Int) < q :=
  calc (1 : Rat) / 2 ^ (1024 : Int) < 1 / 2 ^ (52 : Int) :=
        one_div_lt_one_div_of_lt (two_zpow_pos 52) (zpow_lt_zpow_right₀ (by norm_num) (by norm_num))
    _ = 1 / 4503599627370496 := by norm_num
    _ ≤ q := h

/-- Behind a term of at least one this is all that is left, if anything is. -/
theorem fract_gt_of_one_le {x : Binary64} (hx : x.isFinite = true) (hone : 1 ≤ x.value)
    (hne : (x - floor x).isZero = false) : 1 / 2 ^ (1024 : Int) < x.value - x.value.floor := by
  obtain ⟨hrest, hvalue⟩ := sub_floor hx (by linarith)
  have hfract : x.value - x.value.floor ≠ 0 := by
    intro hzero
    rw [(isZero_iff hrest).mpr (hvalue.trans hzero)] at hne
    cases hne
  exact tiny_lt_of_le (fract_ge_of_one_le hx hone hfract)

theorem floor_eq_zero {q : Rat} (h : 0 ≤ q) (hlt : q < 1) : q.floor = 0 :=
  floor_eq_of_bounds (by exact_mod_cast h) (by rwa [Int.cast_zero, zero_add])

/-- What the first term leaves, unless the number is positive and at most `2 ^ (-1024)`. -/
theorem fract_gt_of_large {x : Binary64} (hx : x.isFinite = true) (hx₀ : 0 ≤ x.value)
    (hlarge : x.value = 0 ∨ 1 / 2 ^ (1024 : Int) < x.value) (hne : (x - floor x).isZero = false) :
    1 / 2 ^ (1024 : Int) < x.value - x.value.floor := by
  rcases le_or_gt 1 x.value with hone | hsmall
  · exact fract_gt_of_one_le hx hone hne
  · -- below one the first term is zero, and all of the number is left
    rw [floor_eq_zero hx₀ hsmall, Int.cast_zero, sub_zero]
    refine hlarge.resolve_left ?_
    intro hzero
    obtain ⟨hfinite, hvalue⟩ := sub_floor hx hx₀
    rw [floor_eq_zero hx₀ hsmall, hzero, Int.cast_zero, sub_zero] at hvalue
    rw [(isZero_iff hfinite).mpr hvalue] at hne
    cases hne

/-! ## What a step preserves -/

/-- The terms are these natural numbers, of which all behind the first are at least one. -/
structure AreTerms (as : List Binary64) (ns : List Nat) : Prop where
  integers : List.Forall₂ (fun (a : Binary64) (n : Nat) => a.isFinite = true ∧ a.value = n) as ns
  positive : ∀ n ∈ ns.tail, 1 ≤ n

/-- The parts of the convergents keep track of the continuants of the terms. -/
structure Follows (as : List Binary64) (ns : List Nat) (c : Convergents) : Prop where
  terms : AreTerms as ns
  ordered : (Continuants.ofTerms ns).Ordered
  h : Tracks (Continuants.ofTerms ns).h c.h
  h₀ : Tracks (Continuants.ofTerms ns).h₀ c.h₀
  k : Tracks (Continuants.ofTerms ns).k c.k
  k₀ : Tracks (Continuants.ofTerms ns).k₀ c.k₀
  rest : c.rest.isFinite = true

/-- What is left has a reciprocal of at least one, if anything is left. -/
def Continues (c : Convergents) : Prop :=
  c.rest.isZero = false → (1 / c.rest).isFinite = true ∧ 1 ≤ (1 / c.rest).value

/-- The first term may be zero. -/
theorem follows_first {x : Binary64} (hx : x.isFinite = true) (hx₀ : 0 ≤ x.value) :
    Follows [floor x] [x.value.floor.toNat] (Convergents.start x).advance := by
  have hterm := exists_floor_eq_natCast hx hx₀
  have hh := Tracks.mul_integer hterm.1 hterm.2 isFinite_ofNat_one (m := 1) (by rw [value_one]; rfl)
  have hk := Tracks.mul_integer hterm.1 hterm.2 isFinite_ofNat_zero (m := 0)
    (by rw [value_ofNat_zero]; rfl)
  exact {
    terms := ⟨.cons hterm .nil, List.forall_mem_nil _⟩
    ordered := Continuants.ordered_start_advance _
    h := hh.add .zero
    h₀ := .one
    k := hk.add .one
    k₀ := .zero
    rest := (sub_floor hx hx₀).1 }

section

variable {as : List Binary64} {ns : List Nat} {c : Convergents}

theorem Follows.ne_nil (h : Follows as ns c) : ns ≠ [] := by
  rintro rfl
  exact absurd h.ordered.one_le_k (by decide)

/-- Every other term is at least one. -/
theorem Follows.next (h : Follows as ns c) {b : Binary64} (hb : b.isFinite = true) (hone : 1 ≤ b.value) :
    Follows (as ++ [floor b]) (ns ++ [b.value.floor.toNat]) (Convergents.advance { c with rest := b }) := by
  have hb₀ : 0 ≤ b.value := by linarith
  have hterm := exists_floor_eq_natCast hb hb₀
  have hpos := one_le_toNat_floor hone
  have hw := Continuants.ofTerms_append ns b.value.floor.toNat
  constructor
  case terms =>
    refine ⟨List.rel_append h.terms.integers (.cons hterm .nil), ?_⟩
    rw [List.tail_append_of_ne_nil h.ne_nil, List.forall_mem_append, List.forall_mem_singleton]
    exact ⟨h.terms.positive, hpos⟩
  case ordered => exact hw ▸ h.ordered.advance hpos
  case h => exact hw ▸ (h.h.mul hterm.1 hterm.2 hpos).add h.h₀
  case h₀ => exact hw ▸ h.h
  case k => exact hw ▸ (h.k.mul hterm.1 hterm.2 hpos).add h.k₀
  case k₀ => exact hw ▸ h.k
  case rest => exact (sub_floor hb hb₀).1

theorem continues_next {b : Binary64} (hb : b.isFinite = true) (hone : 1 ≤ b.value) :
    Continues (Convergents.advance { c with rest := b }) := by
  intro hne
  exact reciprocal_of_fract hb (by linarith) (fract_gt_of_one_le hb hone hne)

end

/-! ## What every run preserves -/

section

variable {x tolerance : Binary64} {as : List Binary64} {c : Convergents} (hc : Reaches x tolerance as c)

include hc

/-- The parts of every state keep track of the continuants of its terms, unless the number is positive and
at most `2 ^ (-1024)`. -/
theorem Reaches.follows_of_large (hx : x.isFinite = true) (hx₀ : 0 ≤ x.value)
    (hlarge : x.value = 0 ∨ 1 / 2 ^ (1024 : Int) < x.value) : ∃ ns, Follows as ns c ∧ Continues c := by
  -- the parts alone are not enough: the next term is at least one since the reciprocal is
  induction hc with
  | first =>
      refine ⟨_, follows_first hx hx₀, ?_⟩
      intro hne
      exact reciprocal_of_fract hx hx₀ (fract_gt_of_large hx hx₀ hlarge hne)
  | next _ _ hrest ih =>
      obtain ⟨ns, hfollows, hcontinues⟩ := ih
      obtain ⟨hfinite, hone⟩ := hcontinues hrest
      exact ⟨_, hfollows.next hfinite hone, continues_next hfinite hone⟩

end

end Quadra.Fraction
