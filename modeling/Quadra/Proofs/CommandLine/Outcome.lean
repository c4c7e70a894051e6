import Mathlib.Data.List.Basic
import Quadra.Proofs.CommandLine.Course
import Quadra.Proofs.Report.Nonempty

set_option autoImplicit false

/-!
# Outcomes

Code, streams and paging of an outcome agree on every course, and which one is taken depends on the
explanation first, on the form second, and on the equation last: `run_agrees`.
-/

namespace Quadra

open Report

/-! ## Diagnostics are not empty -/

namespace Diagnostic

theorem join_lines_ne_empty (line : String) (lines : List String) :
    String.join ((line :: lines).map (· ++ "\n")) ≠ "" := by
  rw [List.map_cons, String.join_cons]
  exact append_ne_empty_left (append_ne_empty_right line (by decide)) _

theorem Code.explanation_ne_empty (code : Code) : code.explanation ≠ "" := by
  cases code <;> exact join_lines_ne_empty _ _

theorem snippet_ne_empty {d : Diagnostic} {equation text : String} {colour : Bool}
    (h : d.snippet equation colour = .ok text) : text ≠ "" := by
  unfold snippet at h
  simp only at h
  split at h
  · cases h
  · cases h
    exact join_lines_ne_empty _ _

/-- A code is registered under its own name. -/
theorem Code.exists_ofName?_iff (name : String) :
    (∃ code, ofName? name = some code) ↔ ∃ code ∈ all, code.name = name := by
  rw [← Option.isSome_iff_exists, ofName?, List.find?_isSome]
  simp only [beq_iff_eq]

end Diagnostic

theorem Report.Form.unknownMessage_ne_empty (name : String) : unknownMessage name ≠ "" :=
  append_ne_empty_right name (by decide)

namespace CommandLine

/-! ## Outcomes -/

/-- Code and streams of an outcome say the same: a run has failed when it has written to the second
stream, and has not when it has written to the first. -/
structure Outcome.Consistent (outcome : Outcome) : Prop where
  code : outcome.code = 0 ∨ outcome.code = 1
  stderr : outcome.code = 0 ↔ outcome.stderr = ""
  stdout : outcome.code = 0 ↔ outcome.stdout ≠ ""

/-- A text for the first stream only. -/
theorem Outcome.consistent_of_stdout {stdout : String} (h : stdout ≠ "") (paged : Bool) :
    Outcome.Consistent ⟨0, stdout, "", paged⟩ :=
  ⟨.inl rfl, iff_of_true rfl rfl, iff_of_true rfl h⟩

theorem Outcome.consistent_failure {stderr : String} (h : stderr ≠ "") :
    (Outcome.failure stderr).Consistent :=
  ⟨.inr rfl, iff_of_false Nat.one_ne_zero h, iff_of_false Nat.one_ne_zero fun hne => hne rfl⟩

/-- What comes of a rejected equation is a failure that shows its snippet. -/
theorem Outcome.exists_of_map_failure {ε : Type} {snippet : Except ε String} {outcome : Outcome}
    (h : snippet.map Outcome.failure = .ok outcome) :
    ∃ text, snippet = .ok text ∧ outcome = .failure text := by
  cases snippet with
  | error stop => cases h
  | ok text =>
      cases h
      exact ⟨text, rfl, rfl⟩

theorem reportText_ne_empty (options : Options) (form : Form) (p : Polynomial) :
    reportText options form p ≠ "" := by
  unfold reportText
  simp only
  split
  · exact p.report_ne_empty form _
  · exact p.solve.report_ne_empty form _

theorem explain_consistent (name : String) : (explain name).Consistent := by
  unfold explain
  split
  · exact Outcome.consistent_of_stdout (Diagnostic.Code.explanation_ne_empty _) true
  · exact Outcome.consistent_failure (append_ne_empty_right name (by decide))

theorem paged_explain_iff (name : String) :
    (explain name).paged = true ↔ ∃ code ∈ Diagnostic.Code.all, code.name = name := by
  rw [← Diagnostic.Code.exists_ofName?_iff]
  unfold explain
  split
  · rename_i code hcode
    exact iff_of_true rfl ⟨code, hcode⟩
  · rename_i hnone
    refine iff_of_false Bool.false_ne_true ?_
    rintro ⟨code, hcode⟩
    exact absurd (hnone.symm.trans hcode) (Option.some_ne_none code).symm

/-! ## Courses -/

namespace Course

variable {options : Options} {logged : Logged Diagnostic.SnippetFault Outcome} {outcome : Outcome}

theorem consistent (h : Course options logged) (hok : logged.outcome = .ok outcome) :
    outcome.Consistent := by
  cases h with
  | explained =>
      cases hok
      exact explain_consistent _
  | unknownForm =>
      cases hok
      exact Outcome.consistent_failure (Form.unknownMessage_ne_empty _)
  | reported =>
      cases hok
      exact Outcome.consistent_of_stdout (reportText_ne_empty _ _ _) false
  | rejected =>
      obtain ⟨text, hsnippet, rfl⟩ := Outcome.exists_of_map_failure hok
      exact Outcome.consistent_failure (Diagnostic.snippet_ne_empty hsnippet)

/-- Only an explanation that is found is shown page by page. -/
theorem paged_iff (h : Course options logged) (hok : logged.outcome = .ok outcome) :
    outcome.paged = true ↔ ∃ code ∈ Diagnostic.Code.all, options.explain = some code.name := by
  cases h with
  | @explained name hexplain =>
      cases hok
      rw [paged_explain_iff, hexplain]
      simp only [Option.some.injEq, eq_comm]
  | unknownForm hexplain =>
      cases hok
      simp [hexplain, Outcome.failure]
  | reported hexplain =>
      cases hok
      simp [hexplain, Outcome.success]
  | rejected hexplain =>
      obtain ⟨text, -, rfl⟩ := Outcome.exists_of_map_failure hok
      simp [hexplain, Outcome.failure]

/-- A run that comes to the equation succeeds when it is read. -/
theorem code_eq_zero_iff (h : Course options logged) (hok : logged.outcome = .ok outcome)
    (hexplain : options.explain = none) (hform : (Form.ofName? options.form).isSome) :
    outcome.code = 0 ↔ ∃ p, Equation.parse options.equation = .ok p := by
  cases h with
  | explained hname => exact absurd (hexplain.symm.trans hname) (Option.some_ne_none _).symm
  | unknownForm _ hnone => simp [hnone] at hform
  | reported _ _ hparse =>
      cases hok
      exact iff_of_true rfl ⟨_, hparse⟩
  | rejected _ _ hparse =>
      obtain ⟨text, -, rfl⟩ := Outcome.exists_of_map_failure hok
      refine iff_of_false Nat.one_ne_zero ?_
      rintro ⟨p, hp⟩
      cases hparse.symm.trans hp

end Course

/-- **Code and streams agree**, for all options. A code to explain is all that counts when there is one.
An unknown form is reported whatever the equation is. With a known form the run succeeds when the
equation is read, and prints the report on its polynomial, or on the solution. -/
theorem run_agrees (options : Options) :
    (∀ outcome, run options = .ok outcome → outcome.Consistent ∧
        (outcome.paged = true ↔
          ∃ code ∈ Diagnostic.Code.all, options.explain = some code.name)) ∧
      (∀ name, options.explain = some name → ∃ outcome,
        ∀ other : Options, other.explain = some name → run other = .ok outcome) ∧
      (options.explain = none → Form.ofName? options.form = none → ∀ equation,
        run { options with equation := equation } =
          .ok ⟨1, "", options.form ++ " is not an emit format", false⟩) ∧
      (options.explain = none → ∀ form, Form.ofName? options.form = some form →
        (∀ outcome, run options = .ok outcome →
          (outcome.code = 0 ↔ ∃ p, Equation.parse options.equation = .ok p)) ∧
        ∀ p, Equation.parse options.equation = .ok p →
          let config : Config :=
            ⟨options.flags.contains "frac", if options.colour then .ansi else .plain⟩
          run options = .ok
            ⟨0, if options.parseOnly then p.report form config else p.solve.report form config, "",
              false⟩) := by
  have hcourse := course_perform options
  refine ⟨fun outcome hrun => ⟨hcourse.consistent hrun, hcourse.paged_iff hrun⟩, fun name _ => ?_,
    fun hexplain hform equation => ?_, fun hexplain form hform => ⟨fun outcome hrun => ?_, fun p hparse => ?_⟩⟩
  · -- nothing else is looked at
    refine ⟨explain name, fun other hother => ?_⟩
    rw [run, perform, hother]
    rfl
  · rw [run, perform]
    simp only [hexplain, hform]
    rfl
  · exact hcourse.code_eq_zero_iff hrun hexplain (Option.isSome_of_eq_some hform)
  · rw [run, perform_of_parse_ok hexplain hform hparse]
    rfl

/-- A report in colour on an equation that is solved. -/
theorem run_agrees_verbose :
    ∃ p outcome, Equation.parse "2X^2 - 1 = .5X" = .ok p ∧
      run ⟨"2X^2 - 1 = .5X", "verbose", [], false, none, "off", true⟩ = .ok outcome ∧
        outcome.stdout = p.solve.report .verbose ⟨false, .ansi⟩ ∧ outcome.Consistent ∧
          outcome.paged = false := by
  obtain ⟨p, hparse⟩ : ∃ p, Equation.parse "2X^2 - 1 = .5X" = .ok p :=
    ⟨.ofCoefficients (.ofList [(.zero, -1), (.one, -0.5), (.two, 2)]), by decide +kernel⟩
  obtain ⟨hreturns, -, -, hread⟩ :=
    run_agrees ⟨"2X^2 - 1 = .5X", "verbose", [], false, none, "off", true⟩
  have hrun := (hread rfl .verbose rfl).2 p hparse
  exact ⟨p, _, hparse, hrun, rfl, (hreturns _ hrun).1, rfl⟩

/-- The form is looked at in front of the equation, and the code to explain in front of the form. -/
example : run ⟨"x", "yaml", [], false, none, "off", false⟩ =
      .ok (.failure "yaml is not an emit format") ∧
    run ⟨"x", "yaml", [], false, some "P0009", "off", false⟩ =
      .ok (.failure "P0009 is not a diagnostic code") := by
  decide +kernel

end CommandLine

end Quadra
