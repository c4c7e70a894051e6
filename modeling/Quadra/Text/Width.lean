import Quadra.Text.EastAsianWide
import Quadra.Text.ZeroWidth

set_option autoImplicit false

/-!
# Display width

The number of terminal cells that a character takes: none for control characters and for
characters that only change the look of others, two for wide East Asian characters and emoji, and
one for all others.
-/

namespace Quadra.Text

/-- Whether the code point of a character lies in one of the ranges, ends included. -/
def inRanges (ranges : List (Nat × Nat)) (c : Char) : Bool :=
  ranges.any fun range => range.1 ≤ c.toNat && c.toNat ≤ range.2

/-- The control characters below `U+0020` and from `U+007F` to `U+009F`. -/
def isControl (c : Char) : Bool := c.toNat < 0x20 || (0x7F ≤ c.toNat && c.toNat < 0xA0)

/-- The number of cells of a character. -/
def charWidth (c : Char) : Nat :=
  if isControl c then 0
  else if c.toNat < 0x7F then 1
  else if inRanges zeroWidthRanges c then 0
  else if inRanges wideRanges c then 2
  else 1

/-- The number of cells of a text. -/
def width : List Char → Nat
  | [] => 0
  | c :: cs => charWidth c + width cs

@[simp] theorem width_nil : width [] = 0 := rfl

@[simp] theorem width_cons (c : Char) (cs : List Char) :
    width (c :: cs) = charWidth c + width cs := rfl

@[simp] theorem width_append (s t : List Char) : width (s ++ t) = width s + width t := by
  induction s with
  | nil => rw [List.nil_append, width_nil, Nat.zero_add]
  | cons c cs ih => rw [List.cons_append, width_cons, width_cons, ih, Nat.add_assoc]

end Quadra.Text
