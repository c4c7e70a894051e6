import Quadra.Diagnostic.Code
import Quadra.Equation.Fault

set_option autoImplicit false

/-!
# Diagnostics

A diagnostic reports a fault of an equation: a code, a title, the span it is about with a label,
and notes.
-/

namespace Quadra

namespace Diagnostic

/-- Whether a note adds to the report or gives advice. -/
inductive NoteKind
  | note
  | help
deriving DecidableEq

/-- The word in front of a note. -/
def NoteKind.name : NoteKind → String
  | .note => "note"
  | .help => "help"

/-- A line below a snippet. -/
structure Note where
  kind : NoteKind
  text : String
deriving DecidableEq

end Diagnostic

/-- What is reported about an equation, and where in it. -/
structure Diagnostic where
  code : Diagnostic.Code
  title : String
  span : Text.Span
  label : String
  notes : List Diagnostic.Note
deriving DecidableEq

/-- The diagnostic of a fault. A missing `=` comes with advice. -/
def Equation.Fault.diagnostic : Equation.Fault → Diagnostic
  | .format count span =>
      let advice : List Diagnostic.Note :=
        if count = 0 then [⟨.help, "if this expression should equal zero, append \"= 0\""⟩] else []
      { code := .format
        title := "Invalid equation format"
        span := span
        label := if count = 0 then "no `=` in this equation" else "unexpected second `=`"
        notes := ⟨.note, "an equation must contain exactly one '='"⟩ :: advice }
  | .term _ flaw span =>
      { code := .term
        title := "Invalid term"
        span := span
        label := flaw.reason
        notes := [⟨.note, "terms have the form `[sign] [coefficient] [*] [X[^power]]`"⟩] }

end Quadra
