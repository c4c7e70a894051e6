import Quadra.Equation.Token
import Quadra.Text.Blank

set_option autoImplicit false

/-!
# Scanning an equation

The tokens of a text. Blanks are skipped, a number is the longest run of digits and points, and
every other character is a token by itself, so scanning never fails.
-/

namespace Quadra.Equation

/-- The characters that a number goes on with. -/
def isNumberChar (c : Char) : Bool := c.isDigit || c == '.'

/-- Whether a number starts with `c`: a digit, or a point in front of one. -/
def startsNumber (c : Char) (rest : List Char) : Bool :=
  c.isDigit || c == '.' && rest.head?.any Char.isDigit

/-- The token of a single character. -/
def Kind.ofChar : Char → Kind
  | '+' => .plus
  | '-' => .minus
  | '*' => .times
  | '^' => .power
  | '=' => .equals
  | 'x' => .variable
  | 'X' => .variable
  | c => .invalid c

/-- The tokens of a text that starts at this byte offset. -/
def scanFrom (offset : Nat) : List Char → List Token
  | [] => [⟨.finish, ⟨offset, offset⟩⟩]
  | c :: rest =>
      if Text.isBlank c then scanFrom (offset + c.utf8Size) rest
      else if startsNumber c rest then
        let text := c :: rest.takeWhile isNumberChar
        let stop := offset + Text.byteLength text
        ⟨.number text, ⟨offset, stop⟩⟩ :: scanFrom stop (rest.dropWhile isNumberChar)
      else
        let stop := offset + c.utf8Size
        ⟨.ofChar c, ⟨offset, stop⟩⟩ :: scanFrom stop rest
termination_by text => text.length
decreasing_by
  · simp
  · have := (List.dropWhile_sublist isNumberChar (l := rest)).length_le
    simp only [List.length_cons]
    omega
  · simp

/-- The tokens of an equation, the last of which is `finish`. -/
def scan (source : String) : List Token := scanFrom 0 source.toList

end Quadra.Equation
