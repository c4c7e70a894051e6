import Quadra.Binary64.Basic

set_option autoImplicit false

/-!
# The bits of a binary64 number

From the top: one sign bit, eleven exponent bits and fifty-two fraction bits. The exponent field
is zero for subnormal numbers, whose mantissa is the fraction, and counts from `-1075` for the
others, whose mantissa has one more bit in front of the fraction. The field of eleven ones marks
infinities and `nan`.
-/

namespace Quadra.Binary64

theorem canonical_subnormal (n : Nat) : Canonical (n % 4503599627370496) (-1074) := by
  unfold Canonical; omega

theorem canonical_normal (n k : Nat) (h₀ : k ≠ 0) (h : k < 2047) :
    Canonical (4503599627370496 + n % 4503599627370496) ((k : Int) - 1075) := by
  unfold Canonical; omega

/-- The number that the low 64 bits of `bits` denote. -/
def ofBits (bits : Nat) : Binary64 :=
  let negative := bits / 9223372036854775808 % 2 == 1
  let field := bits / 4503599627370496 % 2048
  if h₀ : field = 0 then
    .finite negative (bits % 4503599627370496) (-1074) (canonical_subnormal bits)
  else if h : field < 2047 then
    .finite negative (4503599627370496 + bits % 4503599627370496) ((field : Int) - 1075)
      (canonical_normal bits field h₀ h)
  else if bits % 4503599627370496 = 0 then .infinite negative
  else .nan

/-- The word of a sign, an exponent field and a fraction. -/
def word (negative : Bool) (field fraction : Nat) : Nat :=
  (if negative then 9223372036854775808 else 0) + field * 4503599627370496 + fraction

/-- The bits of a number; of the many that denote `nan`, those with only the top fraction bit. -/
def toBits : Binary64 → Nat
  | .nan => word false 2047 2251799813685248
  | .infinite negative => word negative 2047 0
  | .finite negative m e _ =>
      if m < 4503599627370496 then word negative 0 m
      else word negative (e + 1075).toNat (m - 4503599627370496)

section

variable (negative : Bool) {field fraction : Nat}

theorem word_sign (hf : field < 2048) (hr : fraction < 4503599627370496) :
    (word negative field fraction / 9223372036854775808 % 2 == 1) = negative := by
  cases negative <;> simp [word] <;> omega

theorem word_field (hf : field < 2048) (hr : fraction < 4503599627370496) :
    word negative field fraction / 4503599627370496 % 2048 = field := by
  cases negative <;> simp [word] <;> omega

theorem word_fraction (hr : fraction < 4503599627370496) :
    word negative field fraction % 4503599627370496 = fraction := by
  cases negative <;> simp [word] <;> omega

end

theorem finite_eq_finite {s s' : Bool} {m m' : Nat} {e e' : Int} {h : Canonical m e}
    {h' : Canonical m' e'} (hs : s = s') (hm : m = m') (he : e = e') :
    finite s m e h = finite s' m' e' h' := by
  subst hs hm he; rfl

/-- Every number is read back from its bits. -/
theorem ofBits_toBits (x : Binary64) : ofBits (toBits x) = x := by
  rcases x with _ | negative | ⟨negative, m, e, h⟩
  · decide
  · cases negative <;> decide
  · have hc := h
    unfold Canonical at hc
    by_cases hm : m < 4503599627370496
    · have he : e = -1074 := by omega
      subst he
      have hs := @word_sign negative 0 m (by decide) hm
      have hf := @word_field negative 0 m (by decide) hm
      have hr := @word_fraction negative 0 m hm
      rw [toBits, if_pos hm, ofBits, dif_pos hf]
      exact finite_eq_finite hs hr rfl
    · have hb : m - 4503599627370496 < 4503599627370496 := by omega
      have hs := @word_sign negative (e + 1075).toNat _ (by omega) hb
      have hf := @word_field negative (e + 1075).toNat _ (by omega) hb
      have hr := @word_fraction negative (e + 1075).toNat _ hb
      rw [toBits, if_neg hm, ofBits, dif_neg (by omega), dif_pos (by omega)]
      exact finite_eq_finite hs (by omega) (by omega)

end Quadra.Binary64
