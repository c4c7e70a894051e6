set_option autoImplicit false

/-!
# Outlines

Text that is laid out as a tree: a leaf is one line, and a group is an opening line, its items one
level further in, and a closing line. Items are divided by commas.
-/

namespace Quadra.Report

/-- A tree of lines. The label of an item stands in front of its first line. -/
inductive Outline
  | leaf (text : String)
  | group (opening : String) (items : List (String × Outline)) (closing : String)

/-- How an outline is laid out. -/
structure OutlineStyle where
  /-- The number of blanks of one level. -/
  indent : Nat
  /-- Whether the last item of a group has a comma too. -/
  trailingComma : Bool

namespace Outline

/-- The lines of an item in its group: its label in front, a comma behind, and one level in. -/
def placeItem (style : OutlineStyle) (label comma : String) (lines : List String) : List String :=
  let margin : String := .ofList (List.replicate style.indent ' ')
  let labelled := match lines with
    | [] => []
    | first :: rest => (label ++ first) :: rest
  let divided := match labelled.getLast? with
    | none => []
    | some last => labelled.dropLast ++ [last ++ comma]
  divided.map (margin ++ ·)

mutual

/-- The lines of an outline. A group without items is a single line. -/
def lines (style : OutlineStyle) : Outline → List String
  | .leaf text => [text]
  | .group opening [] closing => [opening ++ closing]
  | .group opening (item :: items) closing =>
      opening :: itemLines style (item :: items) ++ [closing]

/-- The lines of the items of a group. -/
def itemLines (style : OutlineStyle) : List (String × Outline) → List String
  | [] => []
  | (label, item) :: rest =>
      let comma := if rest.isEmpty && !style.trailingComma then "" else ","
      placeItem style label comma (lines style item) ++ itemLines style rest

end

/-- The text of an outline, without a line break at its end. -/
def text (style : OutlineStyle) (outline : Outline) : String :=
  "\n".intercalate (outline.lines style)

end Outline

end Quadra.Report
