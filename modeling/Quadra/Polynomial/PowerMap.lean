set_option autoImplicit false

/-!
# Maps from powers

A map from powers of the variable to values: a list of entries whose powers ascend strictly, so
that equal maps have equal lists and the last entry has the greatest power.
-/

namespace Quadra

/-- A power of the variable. The greatest is `4294967295`. -/
abbrev Power := Fin 4294967296

namespace Power

/-- The power of the constant term. -/
def zero : Power := ⟨0, by decide⟩

/-- The power of the linear term. -/
def one : Power := ⟨1, by decide⟩

/-- The power of the quadratic term. -/
def two : Power := ⟨2, by decide⟩

end Power

/-- Entries in ascending order of their powers. -/
structure PowerMap (α : Type) where
  entries : List (Power × α)
  ascending : entries.Pairwise fun a b => a.1 < b.1

namespace PowerMap

variable {α : Type}

instance [DecidableEq α] : DecidableEq (PowerMap α) := fun a b =>
  if h : a.entries = b.entries then
    .isTrue (by cases a; cases b; cases h; rfl)
  else .isFalse fun h' => h (by rw [h'])

/-- The map without entries. -/
def empty : PowerMap α := ⟨[], .nil⟩

/-- The value at a power. -/
def find? (map : PowerMap α) (power : Power) : Option α :=
  (map.entries.find? fun entry => entry.1 == power).map (·.2)

/-- The entries whose values pass the test. -/
def filter (p : α → Bool) (map : PowerMap α) : PowerMap α :=
  ⟨map.entries.filter fun entry => p entry.2, map.ascending.filter _⟩

/-! ## Insertion -/

/-- The entries with `value` at `power`, in place of a value that stands there. -/
def insertEntry (power : Power) (value : α) : List (Power × α) → List (Power × α)
  | [] => [(power, value)]
  | entry :: rest =>
      if power < entry.1 then (power, value) :: entry :: rest
      else if power = entry.1 then (power, value) :: rest
      else entry :: insertEntry power value rest

theorem mem_insertEntry {power : Power} {value : α} {entries : List (Power × α)}
    {entry : Power × α} (h : entry ∈ insertEntry power value entries) :
    entry = (power, value) ∨ entry ∈ entries := by
  induction entries with
  | nil => simpa [insertEntry] using h
  | cons first rest ih =>
      unfold insertEntry at h
      split at h
      · simpa using h
      · split at h
        · rcases List.mem_cons.mp h with h | h
          · exact .inl h
          · exact .inr (List.mem_cons_of_mem _ h)
        · rcases List.mem_cons.mp h with h | h
          · exact .inr (h ▸ List.mem_cons_self ..)
          · exact (ih h).imp id (List.mem_cons_of_mem _)

theorem pairwise_insertEntry (power : Power) (value : α) {entries : List (Power × α)}
    (h : entries.Pairwise fun a b => a.1 < b.1) :
    (insertEntry power value entries).Pairwise fun a b => a.1 < b.1 := by
  induction entries with
  | nil => simp [insertEntry]
  | cons first rest ih =>
      obtain ⟨hfirst, hrest⟩ := List.pairwise_cons.mp h
      unfold insertEntry
      split
      · rename_i hlt
        refine List.pairwise_cons.mpr ⟨fun entry hentry => ?_, h⟩
        rcases List.mem_cons.mp hentry with rfl | hentry
        · exact hlt
        · exact Fin.lt_trans hlt (hfirst entry hentry)
      · split
        · rename_i heq
          exact List.pairwise_cons.mpr ⟨fun entry hentry => heq ▸ hfirst entry hentry, hrest⟩
        · rename_i hlt hne
          refine List.pairwise_cons.mpr ⟨fun entry hentry => ?_, ih hrest⟩
          rcases mem_insertEntry hentry with rfl | hentry
          · exact Nat.lt_of_le_of_ne (Nat.le_of_not_lt hlt) (Fin.val_ne_of_ne (Ne.symm hne))
          · exact hfirst entry hentry

/-- The map with `value` at `power`. -/
def insert (map : PowerMap α) (power : Power) (value : α) : PowerMap α :=
  ⟨insertEntry power value map.entries, pairwise_insertEntry power value map.ascending⟩

/-- The value that stands at a power in a list of entries. -/
def findEntry (power : Power) : List (Power × α) → Option α
  | [] => none
  | entry :: rest => if entry.1 = power then some entry.2 else findEntry power rest

theorem find?_eq_findEntry (map : PowerMap α) (power : Power) :
    map.find? power = findEntry power map.entries := by
  rw [find?]
  induction map.entries with
  | nil => rfl
  | cons entry rest ih =>
      by_cases h : entry.1 = power
      · simp [findEntry, h]
      · simpa [findEntry, h] using ih

theorem findEntry_insertEntry (power other : Power) (value : α) (entries : List (Power × α)) :
    findEntry other (insertEntry power value entries) =
      if power = other then some value else findEntry other entries := by
  induction entries with
  | nil => rfl
  | cons first rest ih =>
      rw [insertEntry]
      split
      · rfl
      · split
        · rename_i hne heq
          by_cases h : power = other
          · simp [findEntry, h]
          · simp [findEntry, h, ← heq]
        · rename_i hlt hne
          rw [findEntry, findEntry, ih]
          by_cases h : power = other
          · subst h
            simp [Ne.symm hne]
          · simp [h]

/-- Looking up an inserted power finds the new value, and any other power what it found before. -/
theorem find?_insert (map : PowerMap α) (power other : Power) (value : α) :
    (map.insert power value).find? other =
      if power = other then some value else map.find? other := by
  rw [find?_eq_findEntry, find?_eq_findEntry]
  exact findEntry_insertEntry power other value map.entries

/-- The map of a list of entries, of which the last counts where a power occurs again. -/
def ofList (entries : List (Power × α)) : PowerMap α :=
  entries.foldl (fun map entry => map.insert entry.1 entry.2) empty

end PowerMap

end Quadra
