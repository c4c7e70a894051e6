set_option autoImplicit false

/-!
# Spans

A span is a half-open range of UTF-8 byte offsets into a text. The text itself is a list of
characters, so a span is cut out of it by counting the bytes of the characters.
-/

namespace Quadra.Text

/-! ## Bytes of a text -/

/-- The number of UTF-8 bytes of a text. -/
def byteLength : List Char → Nat
  | [] => 0
  | c :: cs => c.utf8Size + byteLength cs

/-- The text without the characters that start in its first `bytes` bytes. -/
def dropBytes : Nat → List Char → List Char
  | _, [] => []
  | bytes, c :: cs => if bytes = 0 then c :: cs else dropBytes (bytes - c.utf8Size) cs

/-- The characters that lie wholly in the first `bytes` bytes of the text. -/
def takeBytes : Nat → List Char → List Char
  | _, [] => []
  | bytes, c :: cs =>
      if c.utf8Size ≤ bytes then c :: takeBytes (bytes - c.utf8Size) cs else []

@[simp] theorem byteLength_nil : byteLength [] = 0 := rfl

@[simp] theorem byteLength_cons (c : Char) (cs : List Char) :
    byteLength (c :: cs) = c.utf8Size + byteLength cs := rfl

@[simp] theorem byteLength_append (s t : List Char) :
    byteLength (s ++ t) = byteLength s + byteLength t := by
  induction s with
  | nil => rw [List.nil_append, byteLength_nil, Nat.zero_add]
  | cons c cs ih => rw [List.cons_append, byteLength_cons, byteLength_cons, ih, Nat.add_assoc]

theorem dropBytes_byteLength_append (s t : List Char) : dropBytes (byteLength s) (s ++ t) = t := by
  induction s with
  | nil => cases t <;> simp [dropBytes]
  | cons c cs ih =>
      have hne : c.utf8Size + byteLength cs ≠ 0 := by have := c.utf8Size_pos; omega
      rw [byteLength_cons, List.cons_append, dropBytes, if_neg hne, Nat.add_sub_cancel_left, ih]

theorem takeBytes_byteLength_append (s t : List Char) : takeBytes (byteLength s) (s ++ t) = s := by
  induction s with
  | nil =>
      cases t with
      | nil => rfl
      | cons c cs =>
          have hlt : ¬ c.utf8Size ≤ 0 := by have := c.utf8Size_pos; omega
          rw [byteLength_nil, List.nil_append, takeBytes, if_neg hlt]
  | cons c cs ih =>
      rw [byteLength_cons, List.cons_append, takeBytes, if_pos (Nat.le_add_right ..),
        Nat.add_sub_cancel_left, ih]

/-! ## Spans -/

/-- The bytes from `lo` up to, but not including, `hi`. -/
structure Span where
  lo : Nat
  hi : Nat
deriving DecidableEq

namespace Span

/-- The smallest span that covers both. -/
def join (a b : Span) : Span := ⟨min a.lo b.lo, max a.hi b.hi⟩

/-- The part of the text that the span covers. -/
def slice (span : Span) (text : List Char) : List Char :=
  takeBytes (span.hi - span.lo) (dropBytes span.lo text)

/-- A middle part of a text is the slice at its byte offsets. -/
theorem slice_middle (s t u : List Char) :
    slice ⟨byteLength s, byteLength s + byteLength t⟩ (s ++ (t ++ u)) = t := by
  rw [slice, dropBytes_byteLength_append, Nat.add_sub_cancel_left, takeBytes_byteLength_append]

end Span

end Quadra.Text
