import Quadra.Proofs.CommandLine.Course
import Quadra.Proofs.CommandLine.LogReader
import Quadra.Proofs.Equation.Faults

set_option autoImplicit false

/-!
# The event log explains the result

`Explains` says for each outcome of an equation which terms are in the log: all of them when it is read,
and those in front of the fault when it is not. The polynomial is what the events add up to. What is written
for the events is read back as them, and a run shows them and its solution, and nothing else:
`event_log_explains`.
-/

namespace Quadra

open Equation

/-- A result in three steps is the same however the steps are grouped. -/
theorem Logged.bind_assoc {ε α β γ : Type} (x : Logged ε α) (f : α → Logged ε β)
    (g : β → Logged ε γ) : x >>= f >>= g = x >>= fun value => f value >>= g := by
  cases hx : x.outcome with
  | error fault => rw [bind_error hx, bind_error hx, bind_error rfl]
  | ok value =>
      rw [bind_ok hx, bind_ok hx]
      cases hf : (f value).outcome with
      | error fault => rw [bind_error rfl, bind_error hf]
      | ok value' => rw [bind_ok rfl, bind_ok hf, List.append_assoc]

/-! ## What the log is to say -/

/-- The polynomial that the events add up to: each value is added to the sum of its power, which starts
from zero. -/
def replay (events : List Event) : Polynomial := .ofCoefficients (totals (loggedMonomials events))

namespace Equation

/-- The terms of both sides, in the order of the text. -/
def sidedTerms (left right : List Token) : List SidedTerm :=
  (splitTerms left).map (Side.left, ·) ++ (splitTerms right).map (Side.right, ·)

/-- The events explain the outcome of an equation with these sides. -/
def Explains (left right : List Token) (events : List Event) : Except Fault Polynomial → Prop
  | .ok p => ∃ reports, events = reports ++ [.reduced p] ∧
      (Event.reduced p).fields = [("degree", toString p.degree.val), ("reduced", p.canonical)] ∧
        Reports (sidedTerms left right) reports ∧ replay reports = p
  | .error (.format _ _) => events = []
  | .error (.term _ (.emptySide .left) _) => left = [] ∧ events = []
  | .error (.term _ (.emptySide .right) _) => right = [] ∧ Reports (sidedTerms left []) events
  | .error (.term _ (.tooLarge n) span) => ∃ before term after,
      sidedTerms left right = before ++ term :: after ∧ spanOf term.2 = span ∧
        Reports (before ++ [term]) events ∧ (sumAt n (loggedMonomials events)).isFinite = false
  | .error (.term _ flaw span) => ∃ before term after,
      sidedTerms left right = before ++ term :: after ∧ spanOf term.2 = span ∧
        Reports before events ∧ readTerm term.1 term.2 = .error flaw

/-! ## The outcome of an equation -/

theorem explains_of_error {source : List Char} {left right : List Token} {events : List Event}
    {fault : Fault} (h : Accounts source .empty (sidedTerms left right) events (.error fault)) :
    Explains left right events (.error fault) := by
  obtain ⟨before, term, after, flaw, hterms, rfl, ⟨hreports, hread⟩ | ⟨n, rfl, hreports, hsum⟩⟩ := h
  · -- a term that cannot be read has neither an empty side nor a sum
    cases flaw with
    | emptySide side => cases flawIn_of_readTerm hread
    | tooLarge n => cases flawIn_of_readTerm hread
    | _ => exact ⟨before, term, after, hterms, rfl, hreports, hread⟩
  · refine ⟨before, term, after, hterms, rfl, hreports, ?_⟩
    rwa [← getD_find?_sums]

theorem explains_of_ok {source : List Char} {left right : List Token} {events : List Event}
    {result : Sums} (h : Accounts source .empty (sidedTerms left right) events (.ok result)) :
    Explains left right (events ++ [.reduced (.ofCoefficients result)])
      (.ok (.ofCoefficients result)) := by
  obtain ⟨hreports, rfl⟩ := h
  refine ⟨events, rfl, rfl, hreports, ?_⟩
  rw [replay, ← sums_eq_totals, sums]

/-- The last step: the polynomial of the sums is logged. -/
def logReduced (sums : Sums) : Logged Fault Polynomial := do
  .log (.reduced (.ofCoefficients sums))
  return .ofCoefficients sums

/-- Both sides of an equation, with their `=`. -/
def addSides (source : List Char) (equals : Token) (left right : List Token) :
    Logged Fault Polynomial :=
  addSide source .left .empty equals left >>= fun sums =>
    addSide source .right sums equals right >>= logReduced

theorem addSide_of_ne_nil {tokens : List Token} (hne : tokens ≠ []) (source : List Char) (side : Side)
    (start : Sums) (equals : Token) :
    addSide source side start equals tokens = addTerms source side start (splitTerms tokens) := by
  rw [addSide, if_neg (by simpa using hne)]

/-- The terms of the left side are logged when the right side is missing. -/
theorem explains_left (source : List Char) (equals : Token) {left : List Token} (hne : left ≠ []) :
    Explains left [] (addSides source equals left []).events
      (addSides source equals left []).outcome := by
  have hterms := accounts_addTerms source .left .empty (splitTerms left)
  unfold addSides
  rw [addSide_of_ne_nil hne]
  cases houtcome : (addTerms source .left .empty (splitTerms left)).outcome with
  | error fault =>
      rw [houtcome] at hterms
      rw [Logged.bind_error houtcome]
      exact explains_of_error (hterms.append_right _)
  | ok mid =>
      rw [houtcome] at hterms
      rw [Logged.bind_ok houtcome]
      refine ⟨rfl, ?_⟩
      -- there is no term and no event behind those of the left side
      show Reports ((splitTerms left).map (Side.left, ·) ++ []) (_ ++ [])
      rw [List.append_nil, List.append_nil]
      exact hterms.1

/-- The terms of both sides are logged when there is a token on either. -/
theorem explains_both (source : List Char) (equals : Token) {left right : List Token}
    (hleft : left ≠ []) (hright : right ≠ []) :
    Explains left right (addSides source equals left right).events
      (addSides source equals left right).outcome := by
  have hsides : addSides source equals left right =
      (addTerms source .left .empty (splitTerms left) >>= fun sums =>
        addTerms source .right sums (splitTerms right)) >>= logReduced := by
    unfold addSides
    simp only [addSide_of_ne_nil hleft, addSide_of_ne_nil hright, Logged.bind_assoc]
  have hterms := (accounts_addTerms source .left .empty (splitTerms left)).bind fun sums =>
    accounts_addTerms source .right sums (splitTerms right)
  rw [hsides]
  cases houtcome : (addTerms source .left .empty (splitTerms left) >>= fun sums =>
      addTerms source .right sums (splitTerms right)).outcome with
  | error fault =>
      rw [houtcome] at hterms
      rw [Logged.bind_error houtcome]
      exact explains_of_error hterms
  | ok result =>
      rw [houtcome] at hterms
      rw [Logged.bind_ok houtcome]
      exact explains_of_ok hterms

theorem explains_addSides (source : List Char) (equals : Token) (left right : List Token) :
    Explains left right (addSides source equals left right).events
      (addSides source equals left right).outcome := by
  by_cases hleft : left = []
  · rw [hleft]
    exact ⟨rfl, rfl⟩
  · by_cases hright : right = []
    · rw [hright]
      exact explains_left source equals hleft
    · exact explains_both source equals hleft hright

/-! ## The log of a text -/

/-- The tokens in front of the first `=` of a text, and the tokens behind it. -/
def sidesOf (source : String) : List Token × List Token :=
  let tokens := (scan source).filter (·.kind != .finish)
  (tokens.takeWhile (·.kind != .equals), (tokens.dropWhile (·.kind != .equals)).drop 1)

/-- The events of a reading explain its outcome. -/
theorem explains_read (source : String) :
    Explains (sidesOf source).1 (sidesOf source).2 (read source).events (parse source) := by
  show Explains _ _ (reduce _ _).events (reduce _ _).outcome
  cases hequals : ((scan source).filter (·.kind != .finish)).filter (·.kind == .equals) with
  | nil =>
      simp only [reduce, hequals]
      rfl
  | cons equals others =>
      cases others with
      | nil =>
          simp only [reduce, hequals]
          exact explains_addSides source.toList equals (sidesOf source).1 (sidesOf source).2
      | cons second rest =>
          simp only [reduce, hequals]
          rfl

/-! ## Polynomials in the log -/

theorem Reports.reduced_notMem {terms : List SidedTerm} {events : List Event}
    (h : Reports terms events) (p : Polynomial) : Event.reduced p ∉ events := by
  induction h with
  | nil => exact List.not_mem_nil
  | cons hreport _ ih =>
      obtain ⟨m, -, rfl⟩ := hreport
      intro hmem
      cases hmem with
      | tail _ hmem => exact ih hmem

section

variable {left right : List Token} {events : List Event}

/-- The events in front of a fault are those of terms. -/
theorem Explains.exists_reports {fault : Fault} (h : Explains left right events (.error fault)) :
    ∃ terms, Reports terms events := by
  cases fault with
  | format =>
      cases h
      exact ⟨[], .nil⟩
  | term text flaw span =>
      cases flaw with
      | emptySide side =>
          cases side with
          | left =>
              obtain ⟨-, rfl⟩ := h
              exact ⟨[], .nil⟩
          | right => exact ⟨_, h.2⟩
      | _ =>
          obtain ⟨before, term, after, -, -, hreports, -⟩ := h
          exact ⟨_, hreports⟩

/-- A polynomial is logged only when it is the outcome. -/
theorem Explains.outcome_eq {outcome : Except Fault Polynomial}
    (h : Explains left right events outcome) {p : Polynomial} (hp : Event.reduced p ∈ events) :
    outcome = .ok p := by
  cases outcome with
  | error fault =>
      obtain ⟨terms, hreports⟩ := h.exists_reports
      exact absurd hp (hreports.reduced_notMem p)
  | ok q =>
      obtain ⟨reports, rfl, -, hreports, -⟩ := h
      rcases List.mem_append.mp hp with hmem | hmem
      · exact absurd hmem (hreports.reduced_notMem p)
      · cases List.mem_singleton.mp hmem
        rfl

end

end Equation

namespace CommandLine

/-- The event of the solution, where there is a polynomial to solve. -/
def solvedEvents : Except Fault Polynomial → List Event
  | .ok p => [.solved p.solve.degree p.solve.kind p.solve.discriminant]
  | .error _ => []

theorem reduced_notMem_solvedEvents (p : Polynomial) (outcome : Except Fault Polynomial) :
    Event.reduced p ∉ solvedEvents outcome := by
  cases outcome with
  | error fault => exact List.not_mem_nil
  | ok q =>
      intro hmem
      cases List.mem_singleton.mp hmem

/-- The log of a run that reads the equation and solves it. -/
theorem events_perform {options : Options} (hsolve : options.parseOnly = false)
    (hexplain : options.explain = none) (hform : (Report.Form.ofName? options.form).isSome = true) :
    (perform options).events = (read options.equation).events ++ solvedEvents (parse options.equation) := by
  obtain ⟨form, hform⟩ := Option.isSome_iff_exists.mp hform
  cases hparse : parse options.equation with
  | ok p =>
      rw [perform_of_parse_ok hexplain hform hparse, solutionEvents, hsolve]
      rfl
  | error fault =>
      rw [perform_of_parse_error hexplain hform hparse]
      exact (List.append_nil _).symm

/-- **The event log explains the result**, for every equation: which events there are, in which order, and
that what is written for them is read back as these events. A run at a level that shows them shows these
events and no others. -/
theorem event_log_explains (source : String) :
    Explains (sidesOf source).1 (sidesOf source).2 (read source).events (parse source) ∧
      LogReader.read? (((read source).events ++ solvedEvents (parse source)).map LogReader.written) =
        some ((read source).events ++ solvedEvents (parse source)) ∧
      ∀ options : Options, options.equation = source → options.parseOnly = false →
        options.explain = none → (Report.Form.ofName? options.form).isSome = true →
          options.logLevel = "debug" ∨ options.logLevel = "trace" →
            shownEvents options = (read source).events ++ solvedEvents (parse source) := by
  refine ⟨explains_read source, LogReader.read?_written fun p hp => ?_, ?_⟩
  · rcases List.mem_append.mp hp with hread | hsolved
    · exact hasFiniteCoefficients_of_parse ((explains_read source).outcome_eq hread)
    · exact absurd hsolved (reduced_notMem_solvedEvents p _)
  · rintro options rfl hsolve hexplain hform hlevel
    have hshown : ¬ (options.logLevel ≠ "debug" ∧ options.logLevel ≠ "trace") := by
      rwa [← not_or, not_not]
    rw [shownEvents, if_neg hshown, events_perform hsolve hexplain hform]

/-- The terms of both sides, the polynomial and its solution. -/
theorem event_log_explains_quadratic :
    Explains (sidesOf "2X^2 - 1 = .5X").1 (sidesOf "2X^2 - 1 = .5X").2 (read "2X^2 - 1 = .5X").events
        (parse "2X^2 - 1 = .5X") ∧
      shownEvents ⟨"2X^2 - 1 = .5X", "pretty", [], false, none, "debug", false⟩ =
        [.term .left ⟨2, .two⟩, .term .left ⟨-1, .zero⟩, .term .right ⟨-0.5, .one⟩,
          .reduced (.ofCoefficients (.ofList [(.zero, -1), (.one, -0.5), (.two, 2)])),
          .solved .two .positiveDiscriminant (some 8.25)] := by
  obtain ⟨hexplains, -, hshown⟩ := event_log_explains "2X^2 - 1 = .5X"
  refine ⟨hexplains, (hshown _ rfl rfl rfl (by decide +kernel) (.inl rfl)).trans ?_⟩
  decide +kernel

/-- The second term has a flaw, so that only the first one is logged. -/
example : shownEvents ⟨"1 + = 2", "pretty", [], false, none, "debug", false⟩ =
    [.term .left ⟨1, .zero⟩] := by
  decide +kernel

end CommandLine

end Quadra
