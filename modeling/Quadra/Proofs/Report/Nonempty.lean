import Quadra.Report.Form

set_option autoImplicit false

/-!
# Reports are not empty

Every report has a text, whatever it is about: its first line starts with a fixed text.
-/

namespace Quadra

open Report

namespace Report

theorem append_ne_empty_left {s : String} (hs : s ≠ "") (t : String) : s ++ t ≠ "" := by
  rw [Ne, String.append_eq_empty_iff]
  exact fun h => hs h.1

theorem append_ne_empty_right (s : String) {t : String} (ht : t ≠ "") : s ++ t ≠ "" := by
  rw [Ne, String.append_eq_empty_iff]
  exact fun h => ht h.2

/-- Lines are a text when the first of them has a character. -/
theorem intercalate_cons_ne_empty {line : String} (hline : line ≠ "") (lines : List String) :
    "\n".intercalate (line :: lines) ≠ "" := by
  cases lines with
  | nil => rwa [String.intercalate_singleton]
  | cons next rest =>
      rw [String.intercalate_cons_cons, String.append_assoc]
      exact append_ne_empty_left hline _

theorem joinLines_header_append_ne_empty (palette : Palette) (reducedForm : String) (degree : Power)
    (lines : List String) : joinLines (header palette reducedForm degree ++ lines) ≠ "" :=
  intercalate_cons_ne_empty (append_ne_empty_left (by decide) _) _

/-- A group starts with its opening text, with items and without them. -/
theorem Outline.text_group_ne_empty {opening : String} (hopening : opening ≠ "")
    (style : OutlineStyle) (items : List (String × Outline)) (closing : String) :
    (Outline.group opening items closing).text style ≠ "" := by
  cases items with
  | nil => exact intercalate_cons_ne_empty (append_ne_empty_left hopening _) _
  | cons item items => exact intercalate_cons_ne_empty hopening _

theorem Outline.dump_record_ne_empty {name : String} (hname : name ≠ "")
    (fields : List (String × Outline)) : (Outline.record name fields).dump ≠ "" :=
  Outline.text_group_ne_empty (append_ne_empty_left hname _) _ _ _

theorem Json.pretty_object_ne_empty (members : List (String × Json)) :
    (Json.object members).pretty ≠ "" := by
  have hopening : "\x7b" ≠ "" := by decide
  exact Outline.text_group_ne_empty hopening _ _ _

end Report

theorem Polynomial.report_ne_empty (p : Polynomial) (form : Form) (config : Config) :
    p.report form config ≠ "" := by
  cases form with
  | pretty => exact joinLines_header_append_ne_empty _ _ _ []
  | verbose => exact joinLines_header_append_ne_empty _ _ _ _
  | json => exact Json.pretty_object_ne_empty _
  | debug => exact Outline.dump_record_ne_empty (by decide) _

theorem Resolution.report_ne_empty (r : Resolution) (form : Form) (config : Config) :
    r.report form config ≠ "" := by
  cases form with
  | pretty => exact joinLines_header_append_ne_empty _ _ _ _
  | verbose =>
      rw [report, reportVerbose, List.append_assoc]
      exact joinLines_header_append_ne_empty _ _ _ _
  | json =>
      rw [report, json]
      split <;> exact Json.pretty_object_ne_empty _
  | debug => exact Outline.dump_record_ne_empty (by decide) _

end Quadra
