import Quadra.Equation.Term

set_option autoImplicit false

/-!
# Faults of an equation

Why a text is no equation: it does not have exactly one `=`, or one of its terms has a flaw.
-/

namespace Quadra.Equation

/-- The first fault of a text that is no equation. -/
inductive Fault
  /-- The number of `=` is not one. The span is that of the second, or the whole text where there is
  none. -/
  | format (count : Nat) (span : Text.Span)
  /-- A term with a flaw, its text and its span. An empty side has the span of the `=`. -/
  | term (text : List Char) (flaw : Flaw) (span : Text.Span)
deriving DecidableEq

namespace Fault

/-- The span that a fault is about. -/
def span : Fault → Text.Span
  | .format _ span => span
  | .term _ _ span => span

/-- The sentence that reports a fault. -/
def message : Fault → String
  | .format _ _ => "Invalid equation format: must contain exactly one '='."
  | .term text flaw _ =>
      let quoted := if text.isEmpty then "" else " \"" ++ .ofList text ++ "\""
      "Invalid term" ++ quoted ++ ": " ++ flaw.reason ++ "."

end Fault

end Quadra.Equation
