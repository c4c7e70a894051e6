import Quadra.Proofs.Report.EscapeSequences

set_option autoImplicit false

/-!
# Colours

A report in the colours of a terminal is the plain report with some stretches painted (`Decorated`): paint
puts one colour in front of a text and the reset behind it, and no painted text has a line break or an escape
sequence of its own. Such a report without its escape sequences is the plain one, and each of its colours
ends on its line (`OnlyColours`). Records and dumps have no colours.
-/

namespace Quadra

namespace Report

/-- The first string is the second one with some stretches painted. -/
def Decorated (coloured plain : String) : Prop := Decorates coloured.toList plain.toList

/-- Colours are all that the first string has and the second does not: without its escape sequences it is
the second, which has none, and each colour is followed by one reset before the next colour and the end of
its line. -/
structure OnlyColours (coloured plain : String) : Prop where
  stripped_eq : stripped coloured.toList = plain.toList
  plain_free : esc ∉ plain.toList
  paired : Paired (marks coloured.toList)

/-! ## Visible texts -/

theorem Visible.not_mem_esc {s : String} (h : Visible s) : esc ∉ s.toList := by
  intro hmem
  have hvisible := h esc hmem
  contradiction

theorem Visible.not_mem_newline {s : String} (h : Visible s) : '\n' ∉ s.toList := by
  intro hmem
  have hvisible := h '\n' hmem
  contradiction

/-! ## Painted texts -/

namespace Decorated

variable {coloured plain coloured' plain' : String}

theorem of_visible {s : String} (h : Visible s) : Decorated s s := .of_free h.not_mem_esc

theorem append (h : Decorated coloured plain) (h' : Decorated coloured' plain') :
    Decorated (coloured ++ coloured') (plain ++ plain') := by
  rw [Decorated, String.toList_append, String.toList_append]
  exact Decorates.append h h'

theorem onlyColours (h : Decorated coloured plain) : OnlyColours coloured plain where
  stripped_eq := Decorates.stripped_eq h
  plain_free := Decorates.not_mem_plain h
  paired := (Decorates.closed h).paired

end Decorated

/-- The colour is an escape sequence other than the reset. -/
structure IsColour (colour : String) (digits : List Char) : Prop where
  toList_eq : colour.toList = sequence digits
  isCode : IsCode digits
  ne_reset : digits ≠ ['0']

theorem isColour_red : IsColour Palette.ansi.red ['3', '1'] :=
  ⟨by decide, ⟨List.cons_ne_nil _ _, List.all_eq_true.mp rfl⟩, by decide⟩

theorem isColour_green : IsColour Palette.ansi.green ['3', '2'] :=
  ⟨by decide, ⟨List.cons_ne_nil _ _, List.all_eq_true.mp rfl⟩, by decide⟩

theorem isColour_yellow : IsColour Palette.ansi.yellow ['3', '3'] :=
  ⟨by decide, ⟨List.cons_ne_nil _ _, List.all_eq_true.mp rfl⟩, by decide⟩

theorem isColour_cyan : IsColour Palette.ansi.cyan ['3', '6'] :=
  ⟨by decide, ⟨List.cons_ne_nil _ _, List.all_eq_true.mp rfl⟩, by decide⟩

theorem toList_reset : Palette.ansi.reset.toList = sequence ['0'] := by decide

/-- A painted text is decorated once. -/
theorem IsColour.paint {colour text : String} {digits : List Char} (h : IsColour colour digits)
    (htext : Visible text) : Decorated (Palette.ansi.paint colour text) text := by
  have hne : colour.isEmpty = false := by
    rw [Bool.eq_false_iff, ne_eq, String.isEmpty_iff, ← String.toList_eq_nil_iff, h.toList_eq]
    exact List.cons_ne_nil _ _
  have hpainted := Decorates.painted h.isCode h.ne_reset htext.not_mem_esc htext.not_mem_newline .nil
  rw [Palette.paint, hne, if_neg Bool.false_ne_true, Decorated, String.toList_append, String.toList_append,
    h.toList_eq, toList_reset, List.append_assoc]
  simpa only [List.append_nil] using hpainted

/-! ## Lines -/

theorem Decorated.joinLines {coloured plain : List String} (h : List.Forall₂ Decorated coloured plain) :
    Decorated (joinLines coloured) (joinLines plain) := by
  have hbreak : Decorated "\n" "\n" := .of_free (by decide)
  unfold Report.joinLines
  -- by the first line and the rest, which begins behind a line break unless there is none
  induction h with
  | nil => exact .of_visible (visible_literal rfl)
  | cons hline hrest ih =>
      cases hrest with
      | nil => rwa [String.intercalate_singleton, String.intercalate_singleton]
      | cons hnext hrest =>
          rw [String.intercalate_cons_cons, String.intercalate_cons_cons]
          exact (hline.append hbreak).append ih

theorem forall₂_decorated_of_visible {lines : List String} (h : ∀ line ∈ lines, Visible line) :
    List.Forall₂ Decorated lines lines :=
  List.forall₂_same.mpr fun line hline => .of_visible (h line hline)

theorem decorated_header {reducedForm : String} (h : Visible reducedForm) (degree : Power) :
    List.Forall₂ Decorated (header .ansi reducedForm degree) (header .plain reducedForm degree) :=
  .cons ((Decorated.of_visible (visible_literal rfl)).append (isColour_green.paint h))
    (.cons ((Decorated.of_visible (visible_literal rfl)).append
      (isColour_yellow.paint (visible_toString_nat _))) .nil)

/-- Lines without control characters have no colours together either. -/
theorem decorated_of_visible_lines {lines : List String} (h : ∀ line ∈ lines, Visible line) :
    Decorated (joinLines lines) (joinLines lines) :=
  Decorated.joinLines (forall₂_decorated_of_visible h)

end Report

open Report

/-! ## Reports -/

/-- A report on a polynomial is only decorated. -/
theorem Polynomial.report_decorated (p : Polynomial) (form : Form) (fractions : Bool) :
    Decorated (p.report form ⟨fractions, .ansi⟩) (p.report form ⟨fractions, .plain⟩) := by
  have hheader := decorated_header (visible_canonical p) p.degree
  cases form with
  | pretty => exact Decorated.joinLines hheader
  | verbose =>
      refine Decorated.joinLines (List.rel_append hheader (forall₂_decorated_of_visible ?_))
      refine List.forall_mem_map.mpr fun entry _ => ?_
      simp only [visible_append]
      exact ⟨⟨⟨visible_literal rfl, visible_toString_nat _⟩, visible_literal rfl⟩, visible_display _⟩
  | json => exact decorated_of_visible_lines (visible_lines _ (outlineVisible_json p.json))
  | debug => exact decorated_of_visible_lines (visible_lines _ (outlineVisible_polynomial p))

namespace Resolution

theorem summaryLine_decorated (r : Resolution) :
    Decorated (r.summaryLine .ansi) (r.summaryLine .plain) := by
  have hsummary := visible_summary r.kind
  unfold summaryLine
  split
  · exact isColour_red.paint hsummary
  · exact isColour_red.paint hsummary
  · exact .of_visible hsummary

/-- The solutions of a pretty report are painted one by one. -/
theorem solutionLines_decorated (r : Resolution) (fractions : Bool) :
    List.Forall₂ Decorated
      (r.solutions.map fun solution => Palette.ansi.paint Palette.ansi.cyan (solution.text fractions))
      (r.solutions.map fun solution => Palette.plain.paint Palette.plain.cyan (solution.text fractions)) := by
  rw [List.forall₂_map_left_iff, List.forall₂_map_right_iff, List.forall₂_same]
  exact fun solution _ => isColour_cyan.paint (visible_solution fractions solution)

/-- The solutions of a verbose report are painted together. -/
theorem solutionList_decorated (r : Resolution) (fractions : Bool) :
    Decorated
      (Palette.ansi.paint Palette.ansi.cyan
        (", ".intercalate (r.solutions.map (Solution.text fractions))))
      (Palette.plain.paint Palette.plain.cyan
        (", ".intercalate (r.solutions.map (Solution.text fractions)))) :=
  isColour_cyan.paint (visible_intercalate (visible_literal rfl)
    (List.forall_mem_map.mpr fun solution _ => visible_solution fractions solution))

end Resolution

/-- So is a report on a solved equation. -/
theorem Polynomial.solve_report_decorated (p : Polynomial) (form : Form) (fractions : Bool) :
    Decorated (p.solve.report form ⟨fractions, .ansi⟩) (p.solve.report form ⟨fractions, .plain⟩) := by
  have hheader := decorated_header (visible_canonical p) p.degree
  cases form with
  | pretty =>
      exact Decorated.joinLines (List.rel_append hheader
        (.cons p.solve.summaryLine_decorated (p.solve.solutionLines_decorated fractions)))
  | verbose =>
      have hsteps := List.rel_append hheader (forall₂_decorated_of_visible (visible_explanation p))
      refine Decorated.joinLines (List.rel_append hsteps ?_)
      split
      · exact .nil
      · exact .cons ((Decorated.of_visible (visible_literal rfl)).append
          (p.solve.solutionList_decorated fractions)) .nil
  | json => exact decorated_of_visible_lines (visible_lines _ (outlineVisible_json _))
  | debug => exact decorated_of_visible_lines (visible_lines _ (outlineVisible_resolution _))

/-- Colours only decorate the reports on a polynomial and on its solved equation, and records and dumps
have none. -/
theorem Polynomial.colours_only_decorate (p : Polynomial) (fractions : Bool) :
    (∀ form, OnlyColours (p.report form ⟨fractions, .ansi⟩) (p.report form ⟨fractions, .plain⟩)) ∧
    (∀ form, OnlyColours (p.solve.report form ⟨fractions, .ansi⟩)
      (p.solve.report form ⟨fractions, .plain⟩)) ∧
    p.report .json ⟨fractions, .ansi⟩ = p.report .json ⟨fractions, .plain⟩ ∧
    p.report .debug ⟨fractions, .ansi⟩ = p.report .debug ⟨fractions, .plain⟩ ∧
    p.solve.report .json ⟨fractions, .ansi⟩ = p.solve.report .json ⟨fractions, .plain⟩ ∧
    p.solve.report .debug ⟨fractions, .ansi⟩ = p.solve.report .debug ⟨fractions, .plain⟩ :=
  ⟨fun form => (p.report_decorated form fractions).onlyColours,
    fun form => (p.solve_report_decorated form fractions).onlyColours, rfl, rfl, rfl, rfl⟩

end Quadra
