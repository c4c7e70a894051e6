import Quadra.Binary64.Arithmetic
import Quadra.Equation.Token
import Quadra.Polynomial.PowerMap

set_option autoImplicit false

/-!
# Terms

A side of an equation is a sum of terms `[sign] [coefficient] [*] [X[^power]]`. A term is a run of
tokens of which only the first may be a sign. `Monomial.read` finds the coefficient and power of what
stands behind the sign, or the first flaw that keeps it from having that form, and `readTerm` takes the
sign and the side into account.
-/

namespace Quadra.Equation

/-- The sides of an equation. -/
inductive Side
  | left
  | right
deriving DecidableEq

/-- The side as messages and the event log name it. -/
def Side.name : Side → String
  | .left => "left"
  | .right => "right"

/-! ## Flaws -/

/-- Why a term cannot be read, or a side has none. -/
inductive Flaw
  | emptySide (side : Side)
  | strayCharacter (c : Char)
  | notFinite (text : List Char)
  | notNumber (text : List Char)
  | expectedPower
  | expectedVariable
  | expectedContent
  | unexpected (kind : Kind)
  | tooLarge (power : Power)
deriving DecidableEq

/-- The reason that is given for a flaw. -/
def Flaw.reason : Flaw → String
  | .emptySide side => "the " ++ side.name ++ " side of the equation is empty"
  | .strayCharacter c => "unexpected character `" ++ .ofList [c] ++ "`"
  | .notFinite text => "`" ++ .ofList text ++ "` is not a finite number"
  | .notNumber text => "`" ++ .ofList text ++ "` is not a number"
  | .expectedPower => "expected a non-negative integer power after `^`"
  | .expectedVariable => "expected `X` after `*`"
  | .expectedContent => "expected a coefficient or `X`"
  | .unexpected kind => "unexpected `" ++ kind.text ++ "`"
  | .tooLarge power => "the coefficient of X^" ++ toString power.val ++ " is too large"

/-! ## The body of a term -/

/-- A coefficient and the power of the variable that it multiplies. -/
structure Monomial where
  coefficient : Binary64
  power : Power
deriving DecidableEq

/-- A leading coefficient, which must be a finite number, and the tokens behind it. -/
def readCoefficient : List Kind → Except Flaw (Option Binary64 × List Kind)
  | .number text :: rest =>
      match Binary64.ofNumeral? text with
      | some x => if x.isFinite then .ok (some x, rest) else .error (.notFinite text)
      | none => .error (.notNumber text)
  | rest => .ok (none, rest)

/-- Whether a multiplication sign comes next, and the tokens behind it. -/
def readTimes : List Kind → Bool × List Kind
  | .times :: rest => (true, rest)
  | rest => (false, rest)

/-- The power that an exponent denotes: ASCII digits only, in the range of powers. -/
def powerOf? (text : List Char) : Option Power :=
  let n := Nat.ofDigitChars 10 text 0
  if h : n < 4294967296 then
    if text.all Char.isDigit then some ⟨n, h⟩ else none
  else none

/-- The exponent that must come next, and the tokens behind it. -/
def readExponent : List Kind → Except Flaw (Power × List Kind)
  | .number text :: rest =>
      match powerOf? text with
      | some power => .ok (power, rest)
      | none => .error .expectedPower
  | _ => .error .expectedPower

/-- The power of the variable and the tokens behind it. The variable may only be missing behind a
coefficient without a multiplication sign, and its power is zero then. -/
def readVariable (hasCoefficient hasTimes : Bool) : List Kind → Except Flaw (Power × List Kind)
  | .variable :: .power :: rest => readExponent rest
  | .variable :: rest => .ok (.one, rest)
  | rest =>
      if hasTimes then .error .expectedVariable
      else if hasCoefficient then .ok (.zero, rest)
      else match rest with
        | kind :: _ => .error (.unexpected kind)
        | [] => .error .expectedContent

/-- The character of a token that no equation contains. -/
def Kind.stray? : Kind → Option Char
  | .invalid c => some c
  | _ => none

/-- The monomial of a term without its sign. A stray character anywhere in the term is reported
before anything else. -/
def Monomial.read (body : List Kind) : Except Flaw Monomial :=
  match body.findSome? Kind.stray? with
  | some c => .error (.strayCharacter c)
  | none => do
      let (coefficient, rest) ← readCoefficient body
      let (hasTimes, rest) := readTimes rest
      let (power, rest) ← readVariable coefficient.isSome hasTimes rest
      match rest with
      | [] => .ok ⟨coefficient.getD 1, power⟩
      | kind :: _ => .error (.unexpected kind)

/-! ## Terms of a side -/

/-- The terms of a side: it is cut in front of every sign. -/
def splitTerms (side : List Token) : List (List Token) :=
  side.splitBy fun _ token => !token.kind.isSign

/-- Whether a term has a minus sign. -/
def isSubtracted (term : List Token) : Bool :=
  match term with
  | ⟨.minus, _⟩ :: _ => true
  | _ => false

/-- The tokens of a term behind its sign. -/
def bodyOf (term : List Token) : List Kind :=
  (match term with
    | token :: rest => if token.kind.isSign then rest else token :: rest
    | [] => []).map Token.kind

/-- The span from the first token of a term to its last. -/
def spanOf (term : List Token) : Text.Span :=
  match term.head?, term.getLast? with
  | some first, some last => first.span.join last.span
  | _, _ => ⟨0, 0⟩

/-- The monomial that a term adds to the left side of the equation: subtracted once for a minus
sign, and once where the term stands on the right side. -/
def readTerm (side : Side) (term : List Token) : Except Flaw Monomial := do
  let monomial ← Monomial.read (bodyOf term)
  let signed := if isSubtracted term then -monomial.coefficient else monomial.coefficient
  return ⟨if side = .right then -signed else signed, monomial.power⟩

end Quadra.Equation
