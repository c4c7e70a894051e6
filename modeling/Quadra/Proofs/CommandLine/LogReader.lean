import Quadra.Journal
import Quadra.Proofs.Equation.RoundTrip
import Quadra.Proofs.Report.JsonNumbers

set_option autoImplicit false

/-!
# The event log is read back

A reader of the event log, which what is written is held against. It knows the level, the three messages,
and of each message the names of its values and what kind of value stands behind each name; from these it
makes the event again, and it makes none from anything else. Numbers are read bit by bit, also those that
are not finite, and a reduced equation is read as an equation: `event?_written`, `read?_written`.
-/

namespace Quadra

open Equation

namespace LogReader

open Report

/-! ## Values -/

/-- A power. -/
def power? (text : String) : Option Power := do
  let n ← JsonReader.natural? text.toList
  if h : n < 4294967296 then return ⟨n, h⟩ else none

/-- A number: a literal with a point or an exponent, or one of three words. -/
def number? (text : String) : Option Binary64 :=
  if text = "NaN" then some .nan
  else if text = "inf" then some (.infinite false)
  else if text = "-inf" then some (.infinite true)
  else match JsonReader.literal? text.toList with
    | some (.number x) => some x
    | _ => none

/-- A side, in quotes. -/
def side? (text : String) : Option Side :=
  if text = "\"left\"" then some .left
  else if text = "\"right\"" then some .right
  else none

/-- A number that may be missing. -/
def optional? (text : String) : Option (Option Binary64) :=
  if text = "None" then some none
  else match text.toList with
    | 'S' :: 'o' :: 'm' :: 'e' :: '(' :: rest =>
        if rest.getLast? = some ')' then (number? (.ofList rest.dropLast)).map some else none
    | _ => none

/-- The kind of a solution. -/
def kind? (text : String) : Option SolutionKind :=
  [ ("Unsupported", .unsupported),
    ("PositiveDiscriminant", .positiveDiscriminant),
    ("ZeroDiscriminant", .zeroDiscriminant),
    ("NegativeDiscriminant", .negativeDiscriminant),
    ("Linear", .linear),
    ("NoSolution", .noSolution),
    ("InfiniteSolutions", SolutionKind.infiniteSolutions) ].lookup text

/-- A polynomial in its reduced form, the degree of which is the one that stands with it. -/
def reduced? (degree text : String) : Option Polynomial := do
  let p ← (parse text).toOption
  if power? degree = some p.degree then return p else none

/-! ## Events -/

/-- The values of fields that have these names, in this order. -/
def values? (names : List String) (fields : List (String × String)) : Option (List String) :=
  if fields.map Prod.fst = names then some (fields.map Prod.snd) else none

/-- What is written for an event. -/
structure Entry where
  level : String
  message : String
  fields : List (String × String)

/-- The event that an entry is for. -/
def event? (entry : Entry) : Option Event :=
  if entry.level ≠ "DEBUG" then none
  else if entry.message = "accumulating term" then
    match values? ["power", "value", "side"] entry.fields with
    | some [power, value, side] => do
        return .term (← side? side) ⟨← number? value, ← power? power⟩
    | _ => none
  else if entry.message = "parsed equation" then
    match values? ["degree", "reduced"] entry.fields with
    | some [degree, text] => (reduced? degree text).map .reduced
    | _ => none
  else if entry.message = "solved equation" then
    match values? ["degree", "solution_type", "discriminant"] entry.fields with
    | some [degree, kind, discriminant] => do
        return .solved (← power? degree) (← kind? kind) (← optional? discriminant)
    | _ => none
  else none

/-- The events of a log. -/
def read? (entries : List Entry) : Option (List Event) := entries.mapM event?

/-- An event is written with its level, its message and its fields. -/
def written (event : Event) : Entry := ⟨event.level, event.message, event.fields⟩

/-! ## Reading back -/

theorem power?_toString (n : Power) : power? (toString n.val) = some n := by
  rw [power?, JsonReader.natural?_toString, Option.bind_eq_bind, Option.bind_some, dif_pos n.isLt]
  rfl

/-- No literal is one of the words for what is not finite. -/
theorem number?_of_literal? {text : String} {x : Binary64}
    (h : JsonReader.literal? text.toList = some (.number x)) : number? text = some x := by
  have hword : ∀ word : String, JsonReader.literal? word.toList = none → text ≠ word := by
    rintro word hnone rfl
    cases hnone.symm.trans h
  rw [number?, if_neg (hword "NaN" (by decide)), if_neg (hword "inf" (by decide)),
    if_neg (hword "-inf" (by decide)), h]

theorem number?_inspect (x : Binary64) : number? x.inspect = some x := by
  cases x with
  | nan => rfl
  | infinite negative => cases negative <;> rfl
  | finite negative m e h =>
      apply number?_of_literal?
      rw [Binary64.inspect, String.toList_ofList]
      exact JsonReader.literal?_write rfl rfl

theorem optional?_inspect (x : Binary64) : optional? ("Some(" ++ x.inspect ++ ")") = some (some x) := by
  have htext : ("Some(" ++ x.inspect ++ ")").toList =
      'S' :: 'o' :: 'm' :: 'e' :: '(' :: (x.inspect.toList ++ [')']) := by
    rw [String.toList_append, String.toList_append]
    rfl
  have hnone : "Some(" ++ x.inspect ++ ")" ≠ "None" := by
    intro heq
    rw [heq] at htext
    cases htext
  rw [optional?, if_neg hnone, htext]
  simp only [List.getLast?_concat, if_true, List.dropLast_concat, String.ofList_toList, number?_inspect]
  rfl

theorem side?_name (side : Side) : side? ("\"" ++ side.name ++ "\"") = some side := by
  cases side <;> rfl

theorem kind?_name (kind : SolutionKind) : kind? kind.name = some kind := by
  cases kind <;> rfl

theorem reduced?_canonical {p : Polynomial} (hp : p.HasFiniteCoefficients) :
    reduced? (toString p.degree.val) p.canonical = some p := by
  rw [reduced?, parse_canonical_of_hasFiniteCoefficients hp, power?_toString]
  exact if_pos rfl

/-- **Every event is read back** from its level, its message and its fields, if the reduced equation has
finite coefficients. -/
theorem event?_written (event : Event)
    (hreduced : ∀ p, event = .reduced p → p.HasFiniteCoefficients) :
    event? (written event) = some event := by
  cases event with
  | term side monomial =>
      show (do return Event.term (← side? _) ⟨← number? _, ← power? _⟩) = _
      rw [side?_name, number?_inspect, power?_toString]
      rfl
  | reduced p =>
      show (reduced? _ _).map Event.reduced = _
      rw [reduced?_canonical (hreduced p rfl)]
      rfl
  | solved degree kind discriminant =>
      show (do return Event.solved (← power? _) (← kind? _) (← optional? _)) = _
      rw [power?_toString, kind?_name]
      cases discriminant with
      | none => rfl
      | some x =>
          simp only [optional?_inspect]
          rfl

/-- A log is read back as its events. -/
theorem read?_written {events : List Event}
    (hreduced : ∀ p, .reduced p ∈ events → p.HasFiniteCoefficients) :
    read? (events.map written) = some events := by
  induction events with
  | nil => rfl
  | cons event events ih =>
      have hevent : event? (written event) = some event :=
        event?_written event fun p hp => hreduced p (hp ▸ List.mem_cons_self)
      have hevents : read? (events.map written) = some events :=
        ih fun p hp => hreduced p (List.mem_cons_of_mem event hp)
      unfold read? at hevents ⊢
      rw [List.map_cons, List.mapM_cons, hevent, hevents]
      rfl

end LogReader

end Quadra
