import Quadra.Decimal.Numeral
import Quadra.Text.Span

set_option autoImplicit false

/-!
# Tokens of an equation

The symbols that an equation is made of, each with the span at which it stands.
-/

namespace Quadra.Equation

/-- What a token is. A number keeps its text, which need not be a numeral (`1.2.3`). A character
that no equation contains is a token of its own, and `finish` ends every list of tokens. -/
inductive Kind
  | number (text : List Char)
  | plus
  | minus
  | times
  | power
  | equals
  | variable
  | invalid (c : Char)
  | finish
deriving DecidableEq

namespace Kind

/-- Whether the token is a sign, in front of which a term starts. -/
def isSign : Kind → Bool
  | .plus => true
  | .minus => true
  | _ => false

/-- The token as messages show it. -/
def text : Kind → String
  | .number digits => .ofList digits
  | .plus => "+"
  | .minus => "-"
  | .times => "*"
  | .power => "^"
  | .equals => "="
  | .variable => "X"
  | .invalid c => "Invalid(" ++ .ofList [c] ++ ")"
  | .finish => "end of file"

end Kind

/-- A symbol of an equation and where it stands. -/
structure Token where
  kind : Kind
  span : Text.Span
deriving DecidableEq

end Quadra.Equation
