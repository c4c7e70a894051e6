set_option autoImplicit false

/-!
# Cursors

A cursor walks through the items of a source and may look ahead any number of items. What was
looked at waits in `ahead` until it is taken. Looking beyond the last item leaves an end marker
there for every step, so `ahead` holds items and ends. What remains is `toList`.
-/

namespace Quadra

/-- The items and ends that were looked at but not taken, and the source behind them. -/
structure Cursor (α : Type) where
  ahead : List (Option α)
  source : List α

namespace Cursor

variable {α β : Type}

/-- A cursor in front of the first item. -/
def ofList (items : List α) : Cursor α := ⟨[], items⟩

/-- The items that remain. -/
def toList (c : Cursor α) : List α := c.ahead.filterMap id ++ c.source

/-! ## Looking ahead -/

/-- The same cursor with one more item looked at, or with one more end where the source is
exhausted. -/
def pull (c : Cursor α) : Cursor α := ⟨c.ahead ++ [c.source.head?], c.source.tail⟩

/-- The same cursor with so many more items or ends looked at. -/
def look : Nat → Cursor α → Cursor α
  | 0, c => c
  | n + 1, c => look n c.pull

/-- The next item, which stays in front. -/
def peek (c : Cursor α) : Option α × Cursor α :=
  let looked := if c.ahead.isEmpty then c.pull else c
  (looked.ahead.head?.join, looked)

/-- The images of the next `n` items, or of all where fewer remain. -/
def peekMap (n : Nat) (f : α → β) (c : Cursor α) : List β × Cursor α :=
  let looked := c.look (n - c.ahead.length)
  (((looked.ahead.take n).filterMap id).map f, looked)

/-! ## Taking -/

/-- The next item, which is taken. -/
def next (c : Cursor α) : Option α × Cursor α :=
  match c.ahead with
  | x :: ahead => (x, ⟨ahead, c.source⟩)
  | [] => (c.source.head?, ⟨[], c.source.tail⟩)

/-- The next item, which is taken where it passes the test. -/
def nextIf (p : α → Bool) (c : Cursor α) : Option α × Cursor α :=
  let looked := c.peek
  if looked.1.any p then looked.2.next else (none, looked.2)

/-- An item that is taken no longer remains. -/
theorem length_toList_nextIf_lt {p : α → Bool} {c rest : Cursor α} {x : α}
    (h : c.nextIf p = (some x, rest)) : rest.toList.length < c.toList.length := by
  rcases c with ⟨_ | ⟨_ | y, ahead⟩, source⟩
  · -- nothing was looked at, and the item comes from the source
    rcases source with _ | ⟨z, source⟩
    · cases h
    · change (if p z then (some z, (⟨[], source⟩ : Cursor α)) else (none, ⟨[some z], source⟩)) = _
        at h
      split at h <;> cases h
      exact Nat.lt_succ_self _
  · cases h
  · change (if p y then (some y, (⟨ahead, source⟩ : Cursor α))
      else (none, ⟨some y :: ahead, source⟩)) = _ at h
    split at h <;> cases h
    exact Nat.lt_succ_self _

/-- The items up to the first that fails the test, which are taken. -/
def takeWhile (p : α → Bool) (c : Cursor α) : List α × Cursor α :=
  match _h : c.nextIf p with
  | (some x, rest) =>
      let (xs, rest) := rest.takeWhile p
      (x :: xs, rest)
  | (none, rest) => ([], rest)
termination_by c.toList.length
decreasing_by exact length_toList_nextIf_lt _h

end Cursor

end Quadra
