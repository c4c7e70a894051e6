import Quadra.Proofs.Equation.Sums

set_option autoImplicit false

/-!
# Terms and their events

A term is logged when it is read, in front of the test of its sum, and a term that cannot be read is not
logged. `Accounts` says what that comes to for a run over terms: which of them the events are for, and that
adding up what the events say gives the sums. One term does so, and so does one run behind another.
-/

namespace Quadra

open Equation

/-! ## Reports -/

/-- What the event of a term adds, and to which power. -/
def Event.monomial? : Event → Option Monomial
  | .term _ monomial => some monomial
  | _ => none

/-- The monomials of the events of terms. -/
def loggedMonomials (events : List Event) : List Monomial := events.filterMap Event.monomial?

theorem loggedMonomials_append (events events' : List Event) :
    loggedMonomials (events ++ events') = loggedMonomials events ++ loggedMonomials events' :=
  List.filterMap_append

namespace Equation

/-- A term and the side it stands on. -/
abbrev SidedTerm := Side × List Token

/-- The term is read, and the event says what it adds. -/
def IsReport (term : SidedTerm) (event : Event) : Prop :=
  ∃ m, readTerm term.1 term.2 = .ok m ∧ event = .term term.1 m

/-- The terms are read, and the events are one for each, in the same order. -/
abbrev Reports (terms : List SidedTerm) (events : List Event) : Prop :=
  List.Forall₂ IsReport terms events

/-! ## Runs over terms -/

/-- The events account for the outcome of adding these terms to a map of sums. A term with a flaw was not
logged, and one that makes a sum infinite was. -/
def Accounts (source : List Char) (start : Sums) (terms : List SidedTerm) (events : List Event) :
    Except Fault Sums → Prop
  | .ok result => Reports terms events ∧ (loggedMonomials events).foldl addMonomial start = result
  | .error fault => ∃ before term after flaw, terms = before ++ term :: after ∧
      fault = .term ((spanOf term.2).slice source) flaw (spanOf term.2) ∧
        (Reports before events ∧ readTerm term.1 term.2 = .error flaw ∨
          ∃ n, flaw = .tooLarge n ∧ Reports (before ++ [term]) events ∧
            ((((loggedMonomials events).foldl addMonomial start).find? n).getD 0).isFinite = false)

section

variable {source : List Char} {start : Sums} {terms : List SidedTerm} {events : List Event}

/-- The terms behind a fault do not matter. -/
theorem Accounts.append_right {fault : Fault} (h : Accounts source start terms events (.error fault))
    (others : List SidedTerm) : Accounts source start (terms ++ others) events (.error fault) := by
  obtain ⟨before, term, after, flaw, rfl, hfault⟩ := h
  exact ⟨before, term, after ++ others, flaw, by simp, hfault⟩

/-- One run goes on where another has ended. -/
theorem Accounts.append {mid : Sums} {others : List SidedTerm} {events' : List Event}
    {outcome : Except Fault Sums} (h : Accounts source start terms events (.ok mid))
    (h' : Accounts source mid others events' outcome) :
    Accounts source start (terms ++ others) (events ++ events') outcome := by
  obtain ⟨hreports, rfl⟩ := h
  cases outcome with
  | ok result =>
      obtain ⟨hreports', rfl⟩ := h'
      refine ⟨List.rel_append hreports hreports', ?_⟩
      rw [loggedMonomials_append, List.foldl_append]
  | error fault =>
      obtain ⟨before, term, after, flaw, rfl, hfault, hcause⟩ := h'
      refine ⟨terms ++ before, term, after, flaw, (List.append_assoc ..).symm, hfault, ?_⟩
      rcases hcause with ⟨hbefore, hflaw⟩ | ⟨n, hn, hbefore, hinfinite⟩
      · exact .inl ⟨List.rel_append hreports hbefore, hflaw⟩
      · refine .inr ⟨n, hn, ?_, ?_⟩
        · rw [List.append_assoc]
          exact List.rel_append hreports hbefore
        · rw [loggedMonomials_append, List.foldl_append]
          exact hinfinite

theorem Accounts.bind {x : Logged Fault Sums} {f : Sums → Logged Fault Sums}
    {others : List SidedTerm} (h : Accounts source start terms x.events x.outcome)
    (h' : ∀ mid, Accounts source mid others (f mid).events (f mid).outcome) :
    Accounts source start (terms ++ others) (x >>= f).events (x >>= f).outcome := by
  cases hx : x.outcome with
  | error fault =>
      rw [hx] at h
      rw [Logged.bind_error hx]
      exact h.append_right others
  | ok mid =>
      rw [hx] at h
      rw [Logged.bind_ok hx]
      exact h.append (h' mid)

end

/-- One term. -/
theorem accounts_addTerm (source : List Char) (side : Side) (start : Sums) (term : List Token) :
    Accounts source start [(side, term)] (addTerm source side start term).events
      (addTerm source side start term).outcome := by
  cases hread : readTerm side term with
  | error flaw =>
      rw [addTerm_of_error hread]
      exact ⟨[], (side, term), [], flaw, rfl, rfl, .inl ⟨.nil, hread⟩⟩
  | ok m =>
      have hreport : Reports [(side, term)] [.term side m] := .cons ⟨m, hread, rfl⟩ .nil
      rw [addTerm_of_ok hread]
      by_cases hfinite : (((addMonomial start m).find? m.power).getD 0).isFinite = true
      · rw [if_pos hfinite]
        exact ⟨hreport, rfl⟩
      · rw [if_neg hfinite]
        exact ⟨[], (side, term), [], _, rfl, rfl,
          .inr ⟨m.power, rfl, hreport, Bool.eq_false_iff.mpr hfinite⟩⟩

/-- All terms of a side. -/
theorem accounts_addTerms (source : List Char) (side : Side) (start : Sums)
    (terms : List (List Token)) :
    Accounts source start (terms.map (side, ·)) (addTerms source side start terms).events
      (addTerms source side start terms).outcome := by
  induction terms generalizing start with
  | nil => exact ⟨.nil, rfl⟩
  | cons term terms ih => exact (accounts_addTerm source side start term).bind ih

end Equation

end Quadra
