import Quadra.Decimal.Layout
import Quadra.Report.Outline

set_option autoImplicit false

/-!
# JSON

JSON values and their text: two blanks a level, one member or item a line. Objects keep the order
of their members. A number that is not finite has no JSON text and is written as `null`.
-/

namespace Quadra.Report

/-- A JSON value. Integers are kept apart from numbers, since they are written without a point. -/
inductive Json
  | null
  | integer (n : Nat)
  | number (x : Binary64)
  | text (s : String)
  | array (items : List Json)
  | object (members : List (String × Json))

namespace Json

/-! ## Values -/

/-- A number as a value that is kept: `null` where the number is not finite. -/
def ofNumber (x : Binary64) : Json := if x.isFinite then .number x else .null

/-- Members with another value for a key, which stays in its place. A key that is not there is added
behind the others. -/
def replace {α : Type} (key : String) (value : α) : List (String × α) → List (String × α)
  | [] => [(key, value)]
  | member :: rest =>
      if member.1 = key then (key, value) :: rest else member :: replace key value rest

/-! ## Strings -/

/-- The escape of a character inside a string, of a quote, a backslash or a control character. -/
def escape (c : Char) : List Char :=
  match c with
  | '"' => ['\\', '"']
  | '\\' => ['\\', '\\']
  | '\n' => ['\\', 'n']
  | '\r' => ['\\', 'r']
  | '\t' => ['\\', 't']
  | c =>
      if c.toNat = 0x08 then ['\\', 'b']
      else if c.toNat = 0x0C then ['\\', 'f']
      else if c.toNat < 0x20 then
        '\\' :: 'u' :: '0' :: '0' :: Nat.digitChar (c.toNat / 16) :: [Nat.digitChar (c.toNat % 16)]
      else [c]

/-- A string in quotes. -/
def quote (s : String) : String := .ofList ('"' :: s.toList.flatMap escape ++ ['"'])

/-! ## Text -/

/-- The text of a number, or `null` where it is not finite. -/
def numberText (x : Binary64) : String :=
  if x.isFinite then .ofList (Layout.record.write x) else "null"

mutual

/-- The layout of a value. -/
def outline : Json → Outline
  | .null => .leaf "null"
  | .integer n => .leaf (toString n)
  | .number x => .leaf (numberText x)
  | .text s => .leaf (quote s)
  | .array items => .group "[" (itemOutlines items) "]"
  | .object members => .group "\x7b" (memberOutlines members) "\x7d"

/-- The layout of the items of an array, which have no labels. -/
def itemOutlines : List Json → List (String × Outline)
  | [] => []
  | item :: rest => ("", outline item) :: itemOutlines rest

/-- The layout of the members of an object, labelled with their keys. -/
def memberOutlines : List (String × Json) → List (String × Outline)
  | [] => []
  | (key, member) :: rest => (quote key ++ ": ", outline member) :: memberOutlines rest

end

/-- The text of a value over as many lines as it needs. -/
def pretty (value : Json) : String := value.outline.text ⟨2, false⟩

end Json

end Quadra.Report
