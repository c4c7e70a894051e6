import Quadra.CommandLine.Run

set_option autoImplicit false

/-!
# Courses of a run

The courses that a run can take (`Course`): what leads to each of them, what is logged on it, and what
comes of it. Every run takes one of them (`course_perform`), so that whatever is said of outcomes and of
logs is said course by course.
-/

namespace Quadra

/-! ## Steps of a log -/

namespace Logged

variable {ε ε' α β : Type}

/-- What follows an attempt gets its outcome, whatever it is. -/
theorem attempt_bind (x : Logged ε α) (f : Except ε α → Logged ε' β) :
    x.attempt >>= f = ⟨x.events ++ (f x.outcome).events, (f x.outcome).outcome⟩ :=
  rfl

/-- A function of a result that is not logged. -/
theorem ofExcept_bind_pure (x : Except ε α) (f : α → β) :
    (ofExcept x >>= fun value => Pure.pure (f value)) = ofExcept (x.map f) := by
  cases x with
  | error fault => rfl
  | ok value => rfl

end Logged

/-- One event is logged for each solved equation. -/
theorem Polynomial.resolve_eq {ε : Type} (p : Polynomial) :
    (p.resolve : Logged ε Resolution) = ⟨[.ofResolution p.solve], .ok p.solve⟩ :=
  rfl

namespace CommandLine

open Report

/-! ## Courses -/

/-- The events of the solution, if there is to be one. -/
def solutionEvents (options : Options) (p : Polynomial) : List Event :=
  if options.parseOnly then [] else [.ofResolution p.solve]

/-- The report that is printed for a polynomial. -/
def reportText (options : Options) (form : Form) (p : Polynomial) : String :=
  let config : Config :=
    ⟨options.flags.contains "frac", if options.colour then .ansi else .plain⟩
  if options.parseOnly then p.report form config else p.solve.report form config

theorem report_eq {ε : Type} (options : Options) (form : Form) (p : Polynomial) :
    (report options form p : Logged ε String) =
      ⟨solutionEvents options p, .ok (reportText options form p)⟩ := by
  unfold report solutionEvents reportText
  cases options.parseOnly with
  | true => rfl
  | false =>
      simp only [Bool.false_eq_true, if_false, Polynomial.resolve_eq]
      rfl

section

variable {options : Options} {form : Form} (hexplain : options.explain = none)
  (hform : Form.ofName? options.form = some form)

include hexplain hform

/-- A run whose equation is read logs the reading and the solution, and reports on them. -/
theorem perform_of_parse_ok {p : Polynomial} (hparse : Equation.parse options.equation = .ok p) :
    perform options = ⟨(Equation.read options.equation).events ++ solutionEvents options p,
      .ok (.success (reportText options form p))⟩ := by
  have hread : (Equation.read options.equation).outcome = .ok p := hparse
  unfold perform
  simp only [hexplain, hform, Logged.attempt_bind, hread, report_eq]
  -- nothing is logged behind the report
  show Logged.mk (_ ++ (solutionEvents options p ++ [])) _ = _
  rw [List.append_nil]
  rfl

/-- A run whose equation is rejected logs what was read in front of the fault, and shows its snippet. -/
theorem perform_of_parse_error {fault : Equation.Fault}
    (hparse : Equation.parse options.equation = .error fault) :
    perform options = ⟨(Equation.read options.equation).events,
      (fault.diagnostic.snippet options.equation options.colour).map .failure⟩ := by
  have hread : (Equation.read options.equation).outcome = .error fault := hparse
  unfold perform
  simp only [hexplain, hform, Logged.attempt_bind, hread, Logged.ofExcept_bind_pure]
  rw [Logged.ofExcept, List.append_nil]

end

/-- The courses of a run: what its options are like, what is logged, and what comes of it. -/
inductive Course (options : Options) : Logged Diagnostic.SnippetFault Outcome → Prop
  | explained {name : String} (hexplain : options.explain = some name) :
      Course options ⟨[], .ok (explain name)⟩
  | unknownForm (hexplain : options.explain = none) (hform : Form.ofName? options.form = none) :
      Course options ⟨[], .ok (.failure (Form.unknownMessage options.form))⟩
  | reported {form : Form} {p : Polynomial} (hexplain : options.explain = none)
      (hform : Form.ofName? options.form = some form)
      (hparse : Equation.parse options.equation = .ok p) :
      Course options ⟨(Equation.read options.equation).events ++ solutionEvents options p,
        .ok (.success (reportText options form p))⟩
  | rejected {form : Form} {fault : Equation.Fault} (hexplain : options.explain = none)
      (hform : Form.ofName? options.form = some form)
      (hparse : Equation.parse options.equation = .error fault) :
      Course options ⟨(Equation.read options.equation).events,
        (fault.diagnostic.snippet options.equation options.colour).map .failure⟩

/-- Every run takes one of the courses. -/
theorem course_perform (options : Options) : Course options (perform options) := by
  cases hexplain : options.explain with
  | some name =>
      unfold perform
      rw [hexplain]
      exact .explained hexplain
  | none =>
      cases hform : Form.ofName? options.form with
      | none =>
          unfold perform
          simp only [hexplain, hform]
          exact .unknownForm hexplain hform
      | some form =>
          cases hparse : Equation.parse options.equation with
          | ok p =>
              rw [perform_of_parse_ok hexplain hform hparse]
              exact .reported hexplain hform hparse
          | error fault =>
              rw [perform_of_parse_error hexplain hform hparse]
              exact .rejected hexplain hform hparse

end CommandLine

end Quadra
