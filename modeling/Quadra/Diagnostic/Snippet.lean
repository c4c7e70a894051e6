import Quadra.Diagnostic.Basic
import Quadra.Text.Width

set_option autoImplicit false

/-!
# Snippets

A diagnostic as a terminal shows it: the equation on a numbered line, carets below the span and
the label behind them, and the notes. The source line is the equation and one blank, so that a span
at its end has a cell to point at.

The carets are placed by characters: the byte offsets of the span count as positions of characters
in the source line. Where the line is too short for that, there is no snippet.
-/

namespace Quadra

namespace Diagnostic

/-- The sequences around the parts of a snippet; all are empty for plain text. -/
structure Paint where
  error : String
  frame : String
  title : String
  help : String
  reset : String

namespace Paint

/-- No sequences at all. -/
def plain : Paint := ⟨"", "", "", "", ""⟩

/-- The sequences of a terminal: bold red, blue and cyan, and bold. -/
def colour : Paint :=
  ⟨"\x1b[1;38;5;9m", "\x1b[1;38;5;12m", "\x1b[1m", "\x1b[1;38;5;14m", "\x1b[0m"⟩

/-- The sequence of a note of this kind. -/
def ofNote (paint : Paint) : NoteKind → String
  | .note => paint.title
  | .help => paint.help

end Paint

/-- The span does not lie in the source line. -/
inductive SnippetFault
  | spanOutsideSource
deriving DecidableEq

/-- The line of characters in which a snippet shows an equation. -/
def sourceLine (equation : String) : List Char := equation.toList ++ [' ']

/-- A run of blanks. -/
def blanks (n : Nat) : String := .ofList (List.replicate n ' ')

/-- The indented carets below a span of characters of the source line. -/
def carets (source : List Char) (span : Text.Span) : String :=
  let start := Text.width (source.take span.lo)
  let stop := Text.width (source.take span.hi)
  blanks (start + 1) ++ .ofList (List.replicate (stop - start) '^')

/-- The lines of a snippet. -/
def snippetLines (paint : Paint) (source : List Char) (d : Diagnostic) : List String :=
  let frame := paint.frame ++ "  |" ++ paint.reset
  let noteLine := fun (note : Note) =>
    "  " ++ paint.frame ++ "=" ++ paint.reset ++ " " ++ paint.ofNote note.kind ++ note.kind.name ++
      paint.reset ++ ": " ++ note.text
  [ paint.error ++ "error[" ++ d.code.name ++ "]" ++ paint.reset ++ ": " ++ paint.title ++
      d.title ++ paint.reset,
    frame,
    paint.frame ++ "1 |" ++ paint.reset ++ " " ++ .ofList source,
    frame ++ paint.error ++ carets source d.span ++ paint.reset ++ " " ++ paint.error ++ d.label ++
      paint.reset,
    frame ] ++ d.notes.map noteLine

/-- The snippet of a diagnostic of an equation. -/
def snippet (d : Diagnostic) (equation : String) (colour : Bool) : Except SnippetFault String :=
  let source := sourceLine equation
  if source.length < d.span.hi then .error .spanOutsideSource
  else
    let paint := if colour then Paint.colour else Paint.plain
    .ok (.join ((snippetLines paint source d).map (· ++ "\n")))

end Diagnostic

end Quadra
