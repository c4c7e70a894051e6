import Quadra.Proofs.Binary64.Error
import Quadra.Polynomial.Basic

set_option autoImplicit false

/-!
# The degree through binary64 numbers

The degree is the maximum of the powers as binary64 numbers, brought back to an integer. Every power is a
number, and of numbers that ascend the last is the greatest, so the degree is the last power, or zero where
there is none: `degree_eq_getLast?`.
-/

namespace Quadra

open Numeric Binary64

theorem maximum_append_singleton (xs : List Binary64) (x : Binary64) :
    maximum (xs ++ [x]) = if maximum xs < x then x else maximum xs := by
  rw [maximum, List.foldl_append]
  rfl

/-- The maximum is one of the numbers, or negative infinity. -/
theorem maximum_mem (xs : List Binary64) : maximum xs = .infinite true ∨ maximum xs ∈ xs := by
  induction xs using List.reverseRecOn with
  | nil => exact Or.inl rfl
  | append_singleton xs x ih =>
      rw [maximum_append_singleton]
      split
      · exact Or.inr (List.mem_append_right xs (List.mem_singleton_self x))
      · exact ih.imp id (List.mem_append_left [x])

theorem infinite_lt {x : Binary64} (hx : x.isFinite = true) : .infinite true < x := by
  obtain ⟨_, _, _, _, rfl⟩ := eq_finite_of_isFinite hx
  rfl

/-- A power is a number. -/
theorem value_ofPower (n : Power) :
    (ofInt n.val).isFinite = true ∧ (ofInt n.val).value = (n.val : Rat) := by
  have hle : |(n.val : Int)| ≤ 9007199254740992 := by
    have := n.isLt
    rw [Nat.abs_cast]
    omega
  obtain ⟨hfinite, hvalue⟩ := value_ofInt hle
  exact ⟨hfinite, by rw [hvalue, Int.cast_natCast]⟩

theorem toRange_ofPower (n : Power) : (ofInt n.val).toRange 0 4294967295 = n.val := by
  obtain ⟨hfinite, hvalue⟩ := value_ofPower n
  obtain ⟨s, m, e, h, hx⟩ := eq_finite_of_isFinite hfinite
  have hcut : cut (n.val : Rat) = n.val := by
    rw [cut, if_neg (not_lt.mpr (Nat.cast_nonneg _))]
    exact_mod_cast Rat.floor_intCast n.val
  have := n.isLt
  rw [hx] at hvalue ⊢
  rw [toRange, hvalue, hcut]
  omega

/-- A power is read back from its number. -/
theorem toUInt32_ofPower (n : Power) : (ofInt n.val).toUInt32.toFin = n := by
  rw [toUInt32, toRange_ofPower]
  exact Fin.ext (Nat.mod_eq_of_lt n.isLt)

namespace Polynomial

variable (p : Polynomial)

/-- The number of the last power is the maximum of all. -/
theorem greatestPower_of_append {front : List (Power × Binary64)} {last : Power × Binary64}
    (h : p.coefficients.entries = front ++ [last]) : p.greatestPower = ofInt last.1.val := by
  have hascending := p.coefficients.ascending
  rw [h, List.pairwise_append] at hascending
  rw [greatestPower, h, List.map_append, List.map_singleton, maximum_append_singleton]
  refine if_pos ?_
  rcases maximum_mem (front.map fun entry => ofInt entry.1.val) with hnone | hmem
  · rw [hnone]
    exact infinite_lt (value_ofPower last.1).1
  · obtain ⟨entry, hentry, hmaximum⟩ := List.mem_map.mp hmem
    have hlt : entry.1.val < last.1.val := hascending.2.2 entry hentry _ (List.mem_singleton_self _)
    rw [← hmaximum, lt_iff_value_lt (value_ofPower entry.1).1 (value_ofPower last.1).1,
      (value_ofPower entry.1).2, (value_ofPower last.1).2]
    exact_mod_cast hlt

/-- The degree is the last power, or zero where there is none. -/
theorem degree_eq_getLast? : p.degree = (p.coefficients.entries.getLast?.map (·.1)).getD .zero := by
  rcases List.eq_nil_or_concat' p.coefficients.entries with hnil | ⟨front, last, hlast⟩
  · rw [degree, greatestPower, hnil]
    rfl
  · rw [degree, p.greatestPower_of_append hlast, if_pos (value_ofPower last.1).1, toUInt32_ofPower,
      hlast, List.getLast?_concat]
    rfl

/-- The degree is the greatest power computed in binary64 arithmetic. -/
theorem degree_eq_greatestPower :
    (p.degree.val : Int) =
      if p.greatestPower.isFinite then p.greatestPower.toRange 0 4294967295 else 0 := by
  rw [degree_eq_getLast?]
  rcases List.eq_nil_or_concat' p.coefficients.entries with hnil | ⟨front, last, hlast⟩
  · rw [greatestPower, hnil]
    rfl
  · rw [p.greatestPower_of_append hlast, if_pos (value_ofPower last.1).1, toRange_ofPower, hlast,
      List.getLast?_concat]
    rfl

end Polynomial

end Quadra
