import Quadra.Equation.Fault
import Quadra.Polynomial.Canonical
import Quadra.Solution.Basic

set_option autoImplicit false

/-!
# The event log

The events that are logged while an equation is read and solved, in order. `Logged` is a result
together with the events on the way to it, which are kept when it is a fault.
-/

namespace Quadra

/-- What is logged. -/
inductive Event
  /-- A term was read; `value` is what it adds to the coefficient of its power. -/
  | term (side : Equation.Side) (monomial : Equation.Monomial)
  /-- The equation was reduced. -/
  | reduced (p : Polynomial)
  /-- The equation was solved. -/
  | solved (degree : Power) (kind : SolutionKind) (discriminant : Option Binary64)
deriving DecidableEq

namespace Event

/-- The level of an event. -/
def level (_ : Event) : String := "DEBUG"

/-- The message of an event. -/
def message : Event → String
  | .term _ _ => "accumulating term"
  | .reduced _ => "parsed equation"
  | .solved _ _ _ => "solved equation"

/-- The named values of an event. -/
def fields : Event → List (String × String)
  | .term side monomial =>
      [ ("power", toString monomial.power.val),
        ("value", monomial.coefficient.inspect),
        ("side", "\"" ++ side.name ++ "\"") ]
  | .reduced p => [("degree", toString p.degree.val), ("reduced", p.canonical)]
  | .solved degree kind discriminant =>
      [ ("degree", toString degree.val),
        ("solution_type", kind.name),
        ("discriminant", match discriminant with
          | some x => "Some(" ++ x.inspect ++ ")"
          | none => "None") ]

/-- The event that reports a solved equation. -/
def ofResolution (r : Resolution) : Event := .solved r.degree r.kind r.discriminant

end Event

/-- A result or a fault, and the events that were logged before it. -/
structure Logged (ε α : Type) where
  events : List Event
  outcome : Except ε α

namespace Logged

variable {ε α β : Type}

/-- A result without events. -/
def pure (value : α) : Logged ε α := ⟨[], .ok value⟩

/-- A fault without events. -/
def fail (fault : ε) : Logged ε α := ⟨[], .error fault⟩

/-- The result of `f` on a result, with the events of both; a fault ends the log. -/
def bind (x : Logged ε α) (f : α → Logged ε β) : Logged ε β :=
  match x.outcome with
  | .ok value => ⟨x.events ++ (f value).events, (f value).outcome⟩
  | .error fault => ⟨x.events, .error fault⟩

instance : Monad (Logged ε) where
  pure := pure
  bind := bind

/-- Log one event. -/
def log (event : Event) : Logged ε Unit := ⟨[event], .ok ()⟩

/-- A result or a fault without events. -/
def ofExcept (outcome : Except ε α) : Logged ε α := ⟨[], outcome⟩

/-- The result or the fault as a result, so that a fault does not end what follows. -/
def attempt {ε' : Type} (x : Logged ε α) : Logged ε' (Except ε α) := ⟨x.events, .ok x.outcome⟩

/-- The result where there are no faults. -/
def value (x : Logged Empty α) : α :=
  match x.outcome with
  | .ok value => value
  | .error fault => nomatch fault

theorem bind_ok {x : Logged ε α} {value : α} (h : x.outcome = .ok value) (f : α → Logged ε β) :
    x >>= f = ⟨x.events ++ (f value).events, (f value).outcome⟩ := by
  show bind x f = _
  rw [bind, h]

theorem bind_error {x : Logged ε α} {fault : ε} (h : x.outcome = .error fault)
    (f : α → Logged ε β) : x >>= f = ⟨x.events, .error fault⟩ := by
  show bind x f = _
  rw [bind, h]

end Logged

end Quadra
