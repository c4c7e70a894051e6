import Mathlib.Data.List.Induction
import Mathlib.Data.List.Sort
import Quadra.Polynomial.Basic

set_option autoImplicit false

/-!
# Maps from powers by their values

A map is determined by the value that it holds at each power: `PowerMap.ext_find?`. Lists of entries
and filters are described in the same way.
-/

namespace Quadra

namespace PowerMap

variable {α : Type}

/-- An entry of the map is a value that is found at its power. -/
theorem mem_entries_iff (map : PowerMap α) (n : Power) (value : α) :
    (n, value) ∈ map.entries ↔ map.find? n = some value := by
  rw [find?_eq_findEntry]
  have h := map.ascending
  generalize map.entries = entries at h ⊢
  induction entries with
  | nil => simp [findEntry]
  | cons first rest ih =>
      obtain ⟨hfirst, hrest⟩ := List.pairwise_cons.mp h
      rw [findEntry, List.mem_cons]
      by_cases heq : first.1 = n
      · rw [if_pos heq]
        constructor
        · rintro (rfl | hmem)
          · rfl
          · -- the entries behind the first have greater powers
            exact absurd heq (Fin.ne_of_lt (hfirst _ hmem))
        · intro hvalue
          exact Or.inl (Prod.ext heq.symm (Option.some.inj hvalue).symm)
      · rw [if_neg heq]
        refine Iff.trans ⟨?_, Or.inr⟩ (ih hrest)
        rintro (rfl | hmem)
        · exact absurd rfl heq
        · exact hmem

/-- Maps with the same value at every power are equal. -/
theorem ext_find? {a b : PowerMap α} (h : ∀ n, a.find? n = b.find? n) : a = b := by
  have hmem : ∀ entry, entry ∈ a.entries ↔ entry ∈ b.entries := by
    intro entry
    rw [mem_entries_iff, mem_entries_iff, h]
  -- two ascending lists with the same members are equal
  have : Std.Irrefl fun x y : Power × α => x.1 < y.1 := ⟨fun x => Fin.lt_irrefl x.1⟩
  have hentries := a.ascending.eq_of_mem_iff b.ascending hmem
  cases a
  cases b
  cases hentries
  rfl

/-- At most one entry has a given power. -/
theorem map_filter_entries (map : PowerMap α) (n : Power) :
    (map.entries.filter fun entry => entry.1 = n).map Prod.snd = (map.find? n).toList := by
  rw [find?_eq_findEntry]
  have h := map.ascending
  generalize map.entries = entries at h ⊢
  induction entries with
  | nil => rfl
  | cons first rest ih =>
      obtain ⟨hfirst, hrest⟩ := List.pairwise_cons.mp h
      rw [findEntry, List.filter_cons]
      by_cases heq : first.1 = n
      · -- the powers ascend, so there is no second entry of this power
        have hnone : rest.filter (fun entry => decide (entry.1 = n)) = [] := by
          rw [List.filter_eq_nil_iff]
          intro entry hentry hn
          exact Fin.ne_of_lt (hfirst entry hentry) (heq.trans (of_decide_eq_true hn).symm)
        rw [if_pos (decide_eq_true heq), if_pos heq, hnone]
        rfl
      · rw [if_neg (by rwa [decide_eq_true_iff]), if_neg heq, ih hrest]

/-- A filter keeps the value of a power where it passes the test. -/
theorem find?_filter (p : α → Bool) (map : PowerMap α) (n : Power) :
    (map.filter p).find? n = (map.find? n).filter p := by
  refine Option.ext fun value => ?_
  rw [← mem_entries_iff, Option.filter_eq_some_iff, ← mem_entries_iff]
  exact List.mem_filter

/-- Entries that all hold the value of a function are found where a power occurs. -/
theorem find?_ofList_map {β : Type} (f : Power → α) (power : β → Power) (items : List β)
    (n : Power) :
    (ofList (items.map fun item => (power item, f (power item)))).find? n =
      if n ∈ items.map power then some (f n) else none := by
  induction items using List.reverseRecOn with
  | nil => rfl
  | append_singleton items item ih =>
      rw [ofList, List.map_append, List.foldl_append, ← ofList]
      show (insert _ _ _).find? n = _
      rw [find?_insert, ih, List.map_append, List.map_singleton]
      by_cases heq : power item = n
      · subst heq
        simp
      · simp [heq, Ne.symm heq]

end PowerMap

end Quadra
