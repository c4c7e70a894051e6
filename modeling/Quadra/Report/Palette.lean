set_option autoImplicit false

/-!
# Palettes

The texts that turn a colour on and off. The plain palette has none, so its paint changes nothing.
-/

namespace Quadra.Report

/-- The texts that start each colour, and the text that ends it. -/
structure Palette where
  reset : String
  red : String
  green : String
  yellow : String
  cyan : String
deriving DecidableEq

namespace Palette

/-- No colours. -/
def plain : Palette := ⟨"", "", "", "", ""⟩

/-- The colours of a terminal. -/
def ansi : Palette := ⟨"\x1b[0m", "\x1b[31m", "\x1b[32m", "\x1b[33m", "\x1b[36m"⟩

/-- The text between a colour and the reset; without a colour, the bare text. -/
def paint (palette : Palette) (colour text : String) : String :=
  if colour.isEmpty then text else colour ++ text ++ palette.reset

@[simp] theorem paint_empty (palette : Palette) (text : String) : palette.paint "" text = text :=
  rfl

end Palette

end Quadra.Report
