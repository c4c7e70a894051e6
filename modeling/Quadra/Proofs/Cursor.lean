import Quadra.Cursor

set_option autoImplicit false

/-!
# Cursors answer as lists

Whatever was looked at, a cursor stands in front of the items that remain: the items that wait are the
first of them, and end markers wait only behind all items of an exhausted source (`StandsBefore`). Every
operation answers as the operation on the list of remaining items and keeps this, so any sequence of
operations on a cursor is that sequence on a list: `run_ofList`.
-/

namespace Quadra.Cursor

variable {α β : Type}

/-! ## What a cursor stands in front of -/

/-- The cursor stands in front of these items. -/
inductive StandsBefore : Cursor α → List α → Prop
  /-- Only items were looked at. -/
  | items (looked source : List α) : StandsBefore ⟨looked.map some, source⟩ (looked ++ source)
  /-- The source is exhausted, and every further look has left an end marker. -/
  | ends (looked : List α) (n : Nat) :
      StandsBefore ⟨looked.map some ++ List.replicate n none, []⟩ looked

theorem standsBefore_ofList (items : List α) : (ofList items).StandsBefore items := .items [] items

namespace StandsBefore

variable {c : Cursor α} {xs : List α}

theorem toList_eq (h : c.StandsBefore xs) : c.toList = xs := by
  cases h with
  | items looked source => simp [toList]
  | ends _ n => simp [toList]

/-- Where something was looked at, the first of it is the first item, or an end. -/
theorem head?_ahead (h : c.StandsBefore xs) (hne : c.ahead ≠ []) : c.ahead.head?.join = xs.head? := by
  cases h with
  | items looked source =>
      cases looked with
      | nil => exact absurd rfl hne
      | cons y looked => rfl
  | ends _ n =>
      cases xs with
      | cons x xs => rfl
      | nil =>
          cases n with
          | zero => exact absurd rfl hne
          | succ n => rfl

/-- So many items were looked at, or all where fewer remain. -/
theorem take_ahead (h : c.StandsBefore xs) {n : Nat} (hn : n ≤ c.ahead.length) :
    (c.ahead.take n).filterMap id = xs.take n := by
  cases h with
  | items looked source =>
      rw [List.length_map] at hn
      rw [List.take_append_of_le_length hn, ← List.map_take, List.filterMap_map]
      exact List.filterMap_some
  | ends _ k =>
      rw [List.take_append, ← List.map_take, List.take_replicate, List.filterMap_append,
        List.filterMap_replicate_of_none rfl, List.append_nil, List.filterMap_map]
      exact List.filterMap_some

/-! ## Operations -/

theorem pull (h : c.StandsBefore xs) : c.pull.StandsBefore xs := by
  cases h with
  | items looked source =>
      cases source with
      | nil =>
          rw [List.append_nil]
          exact .ends looked 1
      | cons y source =>
          have hitems := StandsBefore.items (looked ++ [y]) source
          rwa [List.map_append, List.append_assoc] at hitems
  | ends _ n =>
      have hends := StandsBefore.ends xs (n + 1)
      rwa [List.replicate_succ', ← List.append_assoc] at hends

theorem look (h : c.StandsBefore xs) (n : Nat) : (c.look n).StandsBefore xs := by
  induction n generalizing c with
  | zero => exact h
  | succ n ih => exact ih h.pull

theorem peek (h : c.StandsBefore xs) : c.peek.1 = xs.head? ∧ c.peek.2.StandsBefore xs := by
  unfold Cursor.peek
  split
  · refine ⟨h.pull.head?_ahead ?_, h.pull⟩
    exact List.append_ne_nil_of_right_ne_nil _ (List.cons_ne_nil _ _)
  · rename_i hne
    exact ⟨h.head?_ahead fun hnil => hne (by rw [hnil]; rfl), h⟩

end StandsBefore

theorem length_ahead_look (n : Nat) (c : Cursor α) :
    (c.look n).ahead.length = c.ahead.length + n := by
  induction n generalizing c with
  | zero => rfl
  | succ n ih =>
      rw [look, ih, pull, List.length_append, List.length_singleton]
      omega

namespace StandsBefore

variable {c : Cursor α} {xs : List α}

theorem peekMap (h : c.StandsBefore xs) (n : Nat) (f : α → β) :
    (c.peekMap n f).1 = (xs.take n).map f ∧ (c.peekMap n f).2.StandsBefore xs := by
  have hlooked := h.look (n - c.ahead.length)
  have hn : n ≤ (c.look (n - c.ahead.length)).ahead.length := by
    rw [length_ahead_look]
    omega
  exact ⟨congrArg (List.map f) (hlooked.take_ahead hn), hlooked⟩

theorem next (h : c.StandsBefore xs) : c.next.1 = xs.head? ∧ c.next.2.StandsBefore xs.tail := by
  cases h with
  | items looked source =>
      cases looked with
      | nil => exact ⟨rfl, .items [] source.tail⟩
      | cons y looked => exact ⟨rfl, .items looked source⟩
  | ends _ n =>
      cases xs with
      | cons x xs => exact ⟨rfl, .ends xs n⟩
      | nil =>
          cases n with
          | zero => exact ⟨rfl, .ends [] 0⟩
          | succ n => exact ⟨rfl, .ends [] n⟩

/-- An item that passes the test is taken. -/
theorem nextIf_of_pos {x : α} (h : c.StandsBefore (x :: xs)) {p : α → Bool} (hx : p x = true) :
    ∃ rest, c.nextIf p = (some x, rest) ∧ rest.StandsBefore xs := by
  obtain ⟨hpeek, hlooked⟩ := h.peek
  obtain ⟨hnext, hrest⟩ := hlooked.next
  refine ⟨c.peek.2.next.2, ?_, hrest⟩
  show (if c.peek.1.any p then c.peek.2.next else (none, c.peek.2)) = _
  rw [hpeek, List.head?_cons, Option.any_some, hx]
  exact Prod.ext hnext rfl

/-- Without an item that passes the test, nothing is taken. -/
theorem nextIf_of_neg (h : c.StandsBefore xs) {p : α → Bool} (hx : xs.head?.any p = false) :
    ∃ rest, c.nextIf p = (none, rest) ∧ rest.StandsBefore xs := by
  obtain ⟨hpeek, hlooked⟩ := h.peek
  refine ⟨c.peek.2, ?_, hlooked⟩
  show (if c.peek.1.any p then c.peek.2.next else (none, c.peek.2)) = _
  rw [hpeek, hx]
  rfl

end StandsBefore

theorem takeWhile_of_some {p : α → Bool} {c rest : Cursor α} {x : α} (h : c.nextIf p = (some x, rest)) :
    c.takeWhile p = (x :: (rest.takeWhile p).1, (rest.takeWhile p).2) := by
  rw [takeWhile]
  split
  · rename_i h'
    rw [h] at h'
    cases h'
    rfl
  · rename_i h'
    rw [h] at h'
    cases h'

theorem takeWhile_of_none {p : α → Bool} {c rest : Cursor α} (h : c.nextIf p = (none, rest)) :
    c.takeWhile p = ([], rest) := by
  rw [takeWhile]
  split
  · rename_i h'
    rw [h] at h'
    cases h'
  · rename_i h'
    rw [h] at h'
    cases h'
    rfl

theorem StandsBefore.takeWhile {c : Cursor α} {xs : List α} (h : c.StandsBefore xs) (p : α → Bool) :
    (c.takeWhile p).1 = xs.takeWhile p ∧ (c.takeWhile p).2.StandsBefore (xs.dropWhile p) := by
  induction xs generalizing c with
  | nil =>
      obtain ⟨rest, hnone, hrest⟩ := h.nextIf_of_neg (p := p) rfl
      rw [takeWhile_of_none hnone]
      exact ⟨rfl, hrest⟩
  | cons x xs ih =>
      by_cases hx : p x = true
      · obtain ⟨rest, hsome, hrest⟩ := h.nextIf_of_pos hx
        rw [takeWhile_of_some hsome, List.takeWhile_cons_of_pos hx, List.dropWhile_cons_of_pos hx]
        exact ⟨congrArg (x :: ·) (ih hrest).1, (ih hrest).2⟩
      · obtain ⟨rest, hnone, hrest⟩ := h.nextIf_of_neg (Bool.eq_false_iff.mpr hx)
        rw [takeWhile_of_none hnone, List.takeWhile_cons_of_neg hx, List.dropWhile_cons_of_neg hx]
        exact ⟨rfl, hrest⟩

/-! ## Sequences of operations -/

/-- An operation and the type of its answers. -/
inductive Operation (α : Type) : Type → Type 1
  | peek : Operation α (Option α)
  | next : Operation α (Option α)
  | peekMap {β : Type} (n : Nat) (f : α → β) : Operation α (List β)
  | takeWhile (p : α → Bool) : Operation α (List α)

namespace Operation

/-- The answer of a cursor, and the cursor behind the operation. -/
def onCursor {β : Type} : Operation α β → Cursor α → β × Cursor α
  | .peek, c => c.peek
  | .next, c => c.next
  | .peekMap n f, c => c.peekMap n f
  | .takeWhile p, c => c.takeWhile p

/-- The answer of a plain list, and the items that remain. -/
def onList {β : Type} : Operation α β → List α → β × List α
  | .peek, xs => (xs.head?, xs)
  | .next, xs => (xs.head?, xs.tail)
  | .peekMap n f, xs => ((xs.take n).map f, xs)
  | .takeWhile p, xs => (xs.takeWhile p, xs.dropWhile p)

/-- One operation on a cursor answers as on the list of items in front of which the cursor stands. -/
theorem onCursor_of_standsBefore (op : Operation α β) {c : Cursor α} {xs : List α}
    (h : c.StandsBefore xs) :
    (op.onCursor c).1 = (op.onList xs).1 ∧ (op.onCursor c).2.StandsBefore (op.onList xs).2 := by
  cases op with
  | peek => exact h.peek
  | next => exact h.next
  | peekMap n f => exact h.peekMap n f
  | takeWhile p => exact h.takeWhile p

end Operation

/-- A sequence of operations of any types. -/
abbrev Operations (α : Type) : Type 1 := List ((β : Type) × Operation α β)

section

variable {σ : Type} (step : {β : Type} → Operation α β → σ → β × σ)

/-- The answers of a sequence of operations, and the state behind them. -/
def run : Operations α → σ → List ((β : Type) × β) × σ
  | [], s => ([], s)
  | op :: ops, s =>
      let answer := step op.2 s
      let rest := run ops answer.2
      (⟨op.1, answer.1⟩ :: rest.1, rest.2)

theorem run_append_snd (ops more : Operations α) (s : σ) :
    (run step (ops ++ more) s).2 = (run step more (run step ops s).2).2 := by
  induction ops generalizing s with
  | nil => rfl
  | cons op ops ih => exact ih _

end

/-- A sequence of operations on a cursor answers as on the list in front of which the cursor stands. -/
theorem run_onCursor_of_standsBefore (ops : Operations α) {c : Cursor α} {xs : List α}
    (h : c.StandsBefore xs) :
    (run Operation.onCursor ops c).1 = (run Operation.onList ops xs).1 ∧
      (run Operation.onCursor ops c).2.StandsBefore (run Operation.onList ops xs).2 := by
  induction ops generalizing c xs with
  | nil => exact ⟨rfl, h⟩
  | cons op ops ih =>
      obtain ⟨hanswer, hstands⟩ := op.2.onCursor_of_standsBefore h
      obtain ⟨hanswers, hrest⟩ := ih hstands
      refine ⟨?_, hrest⟩
      show _ :: _ = _ :: _
      rw [hanswer, hanswers]

/-- An empty list stays empty. -/
theorem run_onList_nil (ops : Operations α) : (run Operation.onList ops ([] : List α)).2 = [] := by
  induction ops with
  | nil => rfl
  | cons op ops ih =>
      obtain ⟨_, op⟩ := op
      cases op <;> exact ih

/-- **A cursor is a plain list.** Whatever operations follow each other, each answers what it answers on
the list of the items that remain, these items are what remains, and a cursor that has come to the end
stays there. -/
theorem run_ofList (items : List α) (ops : Operations α) :
    (run Operation.onCursor ops (ofList items)).1 = (run Operation.onList ops items).1 ∧
      (run Operation.onCursor ops (ofList items)).2.toList = (run Operation.onList ops items).2 ∧
        ((run Operation.onCursor ops (ofList items)).2.next.1 = none →
          ∀ more, (run Operation.onCursor (ops ++ more) (ofList items)).2.next.1 = none) := by
  obtain ⟨hanswers, hstands⟩ := run_onCursor_of_standsBefore ops (standsBefore_ofList items)
  refine ⟨hanswers, hstands.toList_eq, fun hend more => ?_⟩
  rw [hstands.next.1, List.head?_eq_none_iff] at hend
  obtain ⟨-, hlater⟩ := run_onCursor_of_standsBefore (ops ++ more) (standsBefore_ofList items)
  rw [hlater.next.1, run_append_snd, hend, run_onList_nil]
  rfl

/-- Behind two items the end has come, and whatever follows, it stays. -/
theorem run_ofList_two :
    (run Operation.onCursor [⟨_, .next⟩, ⟨_, .next⟩] (ofList [1, 2])).2.next.1 = none ∧
      ∀ more, (run Operation.onCursor ([⟨_, .next⟩, ⟨_, .next⟩] ++ more)
        (ofList [1, 2])).2.next.1 = none := by
  have hend : (run Operation.onCursor [⟨_, .next⟩, ⟨_, .next⟩] (ofList [1, 2])).2.next.1 = none := rfl
  exact ⟨hend, (run_ofList [1, 2] [⟨_, .next⟩, ⟨_, .next⟩]).2.2 hend⟩

/-- Looking three items ahead of two leaves an end marker, and both items are still taken. -/
example : (run Operation.onCursor [⟨_, .peekMap 3 (· * 10)⟩, ⟨_, .next⟩, ⟨_, .peek⟩]
    (ofList [1, 2])).2.ahead = [some 2, none] := rfl

end Quadra.Cursor
