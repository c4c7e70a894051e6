import Quadra.Proofs.CommandLine.Course
import Quadra.Proofs.Diagnostic.Snippet

set_option autoImplicit false

/-!
# Rejected equations

What a run prints for a text that is no equation. Spans count bytes and carets are placed by character,
so characters of more than one byte in front of the end of a span move its carets to the right, and a
span that is moved beyond the end of the line ends the run without an outcome.
-/

namespace Quadra.CommandLine

open Text Equation Diagnostic

section

variable {options : Options} {fault : Fault} (hexplain : options.explain = none)
  (hform : (Report.Form.ofName? options.form).isSome = true) (hcolour : options.colour = false)
  (hparse : parse options.equation = .error fault)

include hexplain hform hcolour hparse

/-- A rejected equation is reported by the snippet of its fault. -/
theorem run_eq_snippet :
    run options =
      (fault.diagnostic.snippet options.equation false).map Outcome.failure := by
  obtain ⟨form, hform⟩ := Option.isSome_iff_exists.mp hform
  rw [run, perform_of_parse_error hexplain hform hparse, hcolour]

/-- The run has no outcome when the span, counted in characters, ends beyond the source line. -/
theorem run_eq_error_iff :
    run options = .error .spanOutsideSource ↔
      options.equation.toList.length + 1 < fault.span.hi := by
  rw [run_eq_snippet hexplain hform hcolour hparse, snippet]
  simp only [span_diagnostic, sourceLine, List.length_append, List.length_singleton]
  split
  · rename_i hlt
    exact ⟨fun _ => hlt, fun _ => rfl⟩
  · rename_i hle
    constructor
    · intro h
      cases h
    · intro hlt
      exact absurd hlt hle

end

/-- **When the carets are right.** The fault of a rejected equation covers a part of it. The run ends
with code 1 and a caret line that marks exactly this part if and only if both ends of the span point at
their columns, that is, if the characters that their byte offsets run over take no cells. It ends
without an outcome when the span, counted in characters, ends beyond the source line. -/
theorem run_marks_iff {options : Options} {fault : Fault} (hexplain : options.explain = none)
    (hform : (Report.Form.ofName? options.form).isSome = true) (hcolour : options.colour = false)
    (hline : OneLine options.equation) (hparse : parse options.equation = .error fault) :
    ∃ before marked after, Covers options.equation.toList fault.span before marked after ∧
      ((∃ outcome, run options = .ok outcome ∧ outcome.code = 1 ∧
          caretLine outcome.stderr = some (marking before marked fault.diagnostic.label).toList) ↔
        PointsAt before (marked ++ after) ∧ PointsAt (before ++ marked) after) ∧
      (run options = .error .spanOutsideSource ↔
        options.equation.toList.length + 1 < fault.span.hi) := by
  obtain ⟨before, marked, after, hcovers⟩ := exists_covers_of_parse hparse
  refine ⟨before, marked, after, hcovers, ?_, run_eq_error_iff hexplain hform hcolour hparse⟩
  have hrun := run_eq_snippet hexplain hform hcolour hparse
  have hcaret : ∀ report, fault.diagnostic.snippet options.equation false = .ok report →
      (caretLine report = some (marking before marked fault.diagnostic.label).toList ↔
        PointsAt before (marked ++ after) ∧ PointsAt (before ++ marked) after) := by
    intro report hreport
    rw [caretLine_snippet (oneLine_label hparse) hline hreport, span_diagnostic, Option.some.injEq,
      String.toList_inj]
    exact carets_eq_marking_iff hcovers _
  constructor
  · rintro ⟨outcome, hok, -, hmarks⟩
    rw [hrun] at hok
    cases hsnippet : fault.diagnostic.snippet options.equation false with
    | error found =>
        rw [hsnippet] at hok
        cases hok
    | ok report =>
        rw [hsnippet] at hok
        cases hok
        exact (hcaret report hsnippet).mp hmarks
  · intro hpoints
    have hinside : ¬ (sourceLine options.equation).length < fault.diagnostic.span.hi := by
      rw [span_diagnostic]
      exact not_lt_of_pointsAt hcovers hpoints.2
    obtain ⟨report, hreport⟩ := exists_snippet hinside false
    refine ⟨.failure report, ?_, rfl, (hcaret report hreport).mpr hpoints⟩
    rw [hrun, hreport]
    rfl

/-- The equation `2 * y = 0` is plain ASCII, so its flawed term is marked. -/
theorem run_marks_stray_character :
    parse "2 * y = 0" = .error (.term "2 * y".toList (.strayCharacter 'y') ⟨0, 5⟩) ∧
      ∃ before marked after, Covers "2 * y = 0".toList ⟨0, 5⟩ before marked after ∧
        ∃ outcome, run ⟨"2 * y = 0", "pretty", [], false, none, "off", false⟩ = .ok outcome ∧
          outcome.code = 1 ∧ caretLine outcome.stderr =
            some (marking before marked (Flaw.strayCharacter 'y').reason).toList := by
  have hparse : parse "2 * y = 0" = .error (.term "2 * y".toList (.strayCharacter 'y') ⟨0, 5⟩) := by
    decide +kernel
  have hascii : "2 * y = 0".toList.all (·.utf8Size == 1) = true := by decide +kernel
  have hline : OneLine "2 * y = 0" := by decide +kernel
  obtain ⟨before, marked, after, hcovers, hmarks, -⟩ :=
    @run_marks_iff ⟨"2 * y = 0", "pretty", [], false, none, "off", false⟩ _ rfl rfl rfl
      hline hparse
  have hbefore : ∀ c ∈ before ++ marked, c.utf8Size = 1 := by
    intro c hc
    refine beq_iff_eq.mp (List.all_eq_true.mp hascii c ?_)
    rw [hcovers.1, ← List.append_assoc]
    exact List.mem_append_left after hc
  refine ⟨hparse, before, marked, after, hcovers, hmarks.mpr ⟨?_, pointsAt_of_ascii hbefore _⟩⟩
  exact pointsAt_of_ascii (fun c hc => hbefore c (List.mem_append_left marked hc)) _

/-- The character `≠` has three bytes, so the span of `x ≠ 1` ends beyond its source line. -/
theorem run_not_equals_sign :
    parse "x ≠ 1" = .error (.format 0 ⟨0, 7⟩) ∧
      run ⟨"x ≠ 1", "pretty", [], false, none, "off", false⟩ = .error .spanOutsideSource := by
  decide +kernel

end Quadra.CommandLine
