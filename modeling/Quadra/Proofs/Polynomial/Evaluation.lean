import Mathlib.Tactic.Ring
import Quadra.Proofs.Binary64.Arithmetic
import Quadra.Proofs.Polynomial.PowerMap

set_option autoImplicit false

/-!
# The value of a polynomial

A polynomial as a function of the rationals, computed without rounding from the values of its
coefficients.
-/

namespace Quadra

/-- What an entry adds to the value at `x`. -/
def entryValue (x : Rat) (entry : Power × Binary64) : Rat := entry.2.value * x ^ entry.1.val

/-- The value at `x` of the polynomial with these coefficients, whether they are significant or
not. -/
def PowerMap.evaluate (map : PowerMap Binary64) (x : Rat) : Rat :=
  (map.entries.map (entryValue x)).sum

/-- The value of the polynomial at `x`, in exact arithmetic. -/
def Polynomial.evaluate (p : Polynomial) (x : Rat) : Rat := p.coefficients.evaluate x

namespace PowerMap

/-! ## Insertion and filters -/

/-- A power in front of the first entry has no value. -/
theorem findEntry_eq_none {n : Power} {entries : List (Power × Binary64)}
    (h : ∀ entry ∈ entries, n < entry.1) : findEntry n entries = none := by
  induction entries with
  | nil => rfl
  | cons first rest ih =>
      obtain ⟨hfirst, hrest⟩ := List.forall_mem_cons.mp h
      rw [findEntry, if_neg (Fin.ne_of_gt hfirst), ih hrest]

theorem sum_insertEntry (n : Power) (c : Binary64) (x : Rat) {entries : List (Power × Binary64)}
    (h : entries.Pairwise fun a b => a.1 < b.1) :
    ((insertEntry n c entries).map (entryValue x)).sum =
      (entries.map (entryValue x)).sum +
        (c.value - ((findEntry n entries).getD 0).value) * x ^ n.val := by
  induction entries with
  | nil => simp [insertEntry, findEntry, entryValue]
  | cons first rest ih =>
      obtain ⟨hfirst, hrest⟩ := List.pairwise_cons.mp h
      rw [insertEntry]
      split
      · -- the power is new and stands in front of all others
        rename_i hlt
        have hnone : findEntry n (first :: rest) = none := by
          refine findEntry_eq_none fun entry hentry => ?_
          rcases List.mem_cons.mp hentry with rfl | hentry
          · exact hlt
          · exact Fin.lt_trans hlt (hfirst entry hentry)
        rw [hnone, Option.getD_none, Binary64.value_ofNat_zero, List.map_cons, List.sum_cons,
          entryValue]
        ring
      · split
        · -- the coefficient of the power is replaced
          rename_i heq
          rw [findEntry, if_pos heq.symm, List.map_cons, List.map_cons, List.sum_cons,
            List.sum_cons, entryValue, entryValue, heq, Option.getD_some]
          ring
        · -- the entry goes behind the first one
          rename_i hne
          rw [findEntry, if_neg (Ne.symm hne), List.map_cons, List.map_cons, List.sum_cons,
            List.sum_cons, ih hrest, add_assoc]

/-- Inserting a coefficient changes the value by what the coefficient of its power changes. -/
theorem evaluate_insert (map : PowerMap Binary64) (n : Power) (c : Binary64) (x : Rat) :
    (map.insert n c).evaluate x =
      map.evaluate x + (c.value - ((map.find? n).getD 0).value) * x ^ n.val := by
  rw [find?_eq_findEntry]
  exact sum_insertEntry n c x map.ascending

/-- Coefficients of value zero may be left out. -/
theorem evaluate_filter {keep : Binary64 → Bool} {map : PowerMap Binary64}
    (h : ∀ entry ∈ map.entries, keep entry.2 = false → entry.2.value = 0) (x : Rat) :
    (map.filter keep).evaluate x = map.evaluate x := by
  obtain ⟨entries, hascending⟩ := map
  show ((entries.filter _).map (entryValue x)).sum = (entries.map (entryValue x)).sum
  replace h : ∀ entry ∈ entries, keep entry.2 = false → entry.2.value = 0 := h
  -- leaving entries out keeps any list ascending, so the order plays no part
  clear hascending
  induction entries with
  | nil => rfl
  | cons first rest ih =>
      obtain ⟨hfirst, hrest⟩ := List.forall_mem_cons.mp h
      rw [List.filter_cons]
      cases hkeep : keep first.2 with
      | true =>
          rw [if_pos rfl, List.map_cons, List.map_cons, List.sum_cons, List.sum_cons, ih hrest]
      | false =>
          rw [if_neg Bool.false_ne_true, ih hrest, List.map_cons, List.sum_cons, entryValue,
            hfirst hkeep, zero_mul, zero_add]

end PowerMap

end Quadra
