import Mathlib.Data.List.Perm.Basic
import Quadra.CommandLine.Run
import Quadra.Proofs.CommandLine.Grammar

set_option autoImplicit false

/-!
# Options in any order

A command line is a list of groups, each an option with its value or `--parse-only`, and the equation
behind `--`. Its groups are read as what they give (`read_commandLine`). Of the groups of a request, no
option but the list has more than one value, and the values of the list are all the same, so their order
does not matter, and the options of a run are those that were requested: `ofArguments_order`.
-/

namespace Quadra.CommandLine

/-! ## Groups -/

/-- A value from the list of an option. -/
structure Allowed (option : ValueOption) where
  value : String
  mem : value ∈ option.allowed.getD []
deriving DecidableEq

/-- How an option and its value are written: as two arguments, or as one with a `=`. The report form has
a letter too, which a value may also follow directly. -/
inductive Spelling : ValueOption → Type
  | apart (option : ValueOption) : Spelling option
  | equals (option : ValueOption) : Spelling option
  | letterApart : Spelling .outputForm
  | letterEquals : Spelling .outputForm
  | letterJoined : Spelling .outputForm
deriving DecidableEq

/-- The arguments of an option with a value. -/
def Spelling.arguments {option : ValueOption} (value : String) : Spelling option → List String
  | .apart option => ["--" ++ option.longName, value]
  | .equals option => ["--" ++ option.longName ++ "=" ++ value]
  | .letterApart => ["-o", value]
  | .letterEquals => ["-o=" ++ value]
  | .letterJoined => ["-o" ++ value]

/-- A part of a command line that has a meaning of its own. -/
inductive Group
  | valued (option : ValueOption) (spelling : Spelling option) (value : Allowed option)
  | parseOnly
deriving DecidableEq

/-- The arguments of a group. -/
def Group.arguments : Group → List String
  | .valued _ spelling value => spelling.arguments value.value
  | .parseOnly => ["--parse-only"]

/-- Groups, and the equation behind `--`. -/
def commandLine (groups : List Group) (equation : String) : List String :=
  groups.flatMap Group.arguments ++ ["--", equation]

/-! ## Groups as items -/

/-- What a group gives. -/
def Group.item : Group → Item ValueOption
  | .valued option _ value => .value option value.value
  | .parseOnly => .flag "parse-only"

/-- The options can be told apart, and their defaults are allowed. -/
theorem declaration_wellFormed : declaration.WellFormed where
  mem_options option := by cases option <;> decide
  longName_inj option other := by cases option <;> cases other <;> decide
  isName_longName option := by constructor <;> cases option <;> decide
  letter_inj option other letter h h' := by
    cases option <;> cases h
    cases other <;> cases h'
    rfl
  letter_ne option := by cases option <;> decide
  isName_flag := List.forall_mem_singleton.mpr ⟨by decide, by decide⟩
  longName_ne_flag := List.forall_mem_singleton.mpr fun option => by cases option <;> decide
  default_allowed option default h allowed h' := by
    cases option <;> cases h <;> cases h' <;> decide

theorem Allowed.isValue {option : ValueOption} (value : Allowed option) : IsValue value.value := by
  have hall : ∀ value ∈ option.allowed.getD [],
      (value.toList.head?.any fun c => c != '-' && c != '=') = true := by
    cases option <;> decide
  exact hall value.value value.mem

/-- A group is one of the ways to write what it gives. -/
theorem Group.spelled (group : Group) : group.item.Spelled declaration group.arguments := by
  cases group with
  | parseOnly => exact .flag (List.mem_singleton_self _)
  | valued option spelling value =>
      have hvalue := value.isValue
      cases spelling with
      | apart => exact .apart option hvalue
      | equals => exact .equals option hvalue
      | letterApart => exact .letterApart rfl hvalue rfl
      | letterEquals => exact .letterEquals rfl hvalue String.toList_append
      | letterJoined => exact .letterJoined rfl hvalue String.toList_append

/-- Groups are read as what they give, and the equation as it is. -/
theorem read_commandLine {groups : List Group}
    (hgroups : Acceptable declaration (groups.map Group.item)) (equation : String) :
    declaration.read (commandLine groups equation) =
      .ok (.ofItems declaration (groups.map Group.item) equation) := by
  have hspelled : List.Forall₂ (Item.Spelled declaration) (groups.map Group.item)
      (groups.map Group.arguments) :=
    List.forall₂_map_left_iff.mpr
      (List.forall₂_map_right_iff.mpr (List.forall₂_same.mpr fun group _ => group.spelled))
  rw [commandLine, List.flatMap_def]
  exact declaration_wellFormed.read_items hspelled hgroups equation

/-! ## Requests -/

/-- What a command line asks for: each choice is made or left open, and written in one of its ways. -/
structure Request where
  form : Option (Spelling .outputForm × Allowed .outputForm)
  /-- One for each time that fractions are asked for. -/
  fractions : List (Spelling .emitConfig)
  parseOnly : Bool
  log : Option (Spelling .log × Allowed .log)

namespace Request

/-- The groups of a request. -/
def groups (request : Request) : List Group :=
  (request.form.toList.map fun g => .valued .outputForm g.1 g.2) ++
    (request.fractions.map fun spelling => .valued .emitConfig spelling ⟨"frac", .head []⟩) ++
    (if request.parseOnly then [.parseOnly] else []) ++
    request.log.toList.map fun g => .valued .log g.1 g.2

/-- The options of a request; a choice that is left open has its default. -/
def options (request : Request) (equation : String) (colour : Bool) : Options where
  equation := equation
  form := (request.form.map fun g => g.2.value).getD "pretty"
  flags := List.replicate request.fractions.length "frac"
  parseOnly := request.parseOnly
  explain := none
  logLevel := (request.log.map fun g => g.2.value).getD "off"
  colour := colour

/-- The values of each option. -/
def values (request : Request) : ValueOption → List String
  | .outputForm => request.form.toList.map fun g => g.2.value
  | .emitConfig => List.replicate request.fractions.length "frac"
  | .explain => []
  | .log => request.log.toList.map fun g => g.2.value

variable (request : Request)

theorem valuesOf_groups (option : ValueOption) :
    valuesOf option (request.groups.map Group.item) = request.values option := by
  obtain ⟨form, fractions, parseOnly, log⟩ := request
  have hflag : valuesOf option ((if parseOnly then [Group.parseOnly] else []).map Group.item) = [] := by
    cases parseOnly <;> rfl
  have hfractions : valuesOf option ((fractions.map fun spelling =>
      Group.valued .emitConfig spelling ⟨"frac", .head []⟩).map Group.item) =
        if option = .emitConfig then List.replicate fractions.length "frac" else [] := by
    rw [valuesOf, List.filterMap_map, List.filterMap_map]
    cases option <;> simp [Function.comp_def, Group.item, Item.value?]
  simp only [groups, List.map_append, valuesOf_append, hflag, hfractions]
  cases option <;> cases form <;> cases log <;> simp [valuesOf, Group.item, Item.value?, values]

/-- Only the flag itself is a flag. -/
theorem flagsOf_groups :
    flagsOf (request.groups.map Group.item) = if request.parseOnly then ["parse-only"] else [] := by
  obtain ⟨form, fractions, parseOnly, log⟩ := request
  have hfractions : flagsOf ((fractions.map fun spelling =>
      Group.valued .emitConfig spelling ⟨"frac", .head []⟩).map Group.item) = [] := by
    rw [flagsOf, List.filterMap_map, List.filterMap_map]
    exact List.filterMap_eq_nil_iff.mpr fun _ _ => rfl
  simp only [groups, List.map_append, flagsOf_append, hfractions]
  cases form <;> cases parseOnly <;> cases log <;> rfl

theorem mem_allowed_of_mem_values {option : ValueOption} {value : String}
    (h : value ∈ request.values option) : value ∈ option.allowed.getD [] := by
  cases option with
  | outputForm =>
      obtain ⟨g, -, rfl⟩ := List.mem_map.mp h
      exact g.2.mem
  | emitConfig =>
      rw [List.eq_of_mem_replicate h]
      decide
  | explain => cases h
  | log =>
      obtain ⟨g, -, rfl⟩ := List.mem_map.mp h
      exact g.2.mem

/-- An option is given once, or with the same value each time. -/
theorem eq_of_mem_values {option : ValueOption} {value value' : String}
    (h : value ∈ request.values option) (h' : value' ∈ request.values option) : value = value' := by
  have hchoice : ∀ {α : Type} (choice : Option α) (text : α → String),
      value ∈ choice.toList.map text → value' ∈ choice.toList.map text → value = value' := by
    intro α choice text hmem hmem'
    cases choice with
    | none => cases hmem
    | some x => exact (List.mem_singleton.mp hmem).trans (List.mem_singleton.mp hmem').symm
  cases option with
  | outputForm => exact hchoice _ _ h h'
  | emitConfig => exact (List.eq_of_mem_replicate h).trans (List.eq_of_mem_replicate h').symm
  | explain => cases h
  | log => exact hchoice _ _ h h'

end Request

/-! ## Any order -/

/-- A list whose members are all the same has no other order. -/
theorem eq_of_perm_of_forall_eq {α : Type} {xs ys : List α} (h : xs.Perm ys)
    (hsame : ∀ y ∈ ys, ∀ y' ∈ ys, y = y') : xs = ys := by
  cases ys with
  | nil => exact h.eq_nil
  | cons y ys =>
      have hys : y :: ys = List.replicate (ys.length + 1) y :=
        List.eq_replicate_of_mem fun y' hy' => hsame y' hy' y List.mem_cons_self
      rw [hys] at h ⊢
      exact List.perm_replicate.mp h

section

variable {request : Request} {order : List Group} (horder : order.Perm request.groups)

include horder

theorem valuesOf_order (option : ValueOption) :
    valuesOf option (order.map Group.item) = request.values option := by
  have hperm : (valuesOf option (order.map Group.item)).Perm (request.values option) := by
    rw [← request.valuesOf_groups]
    exact (horder.map _).filterMap _
  exact eq_of_perm_of_forall_eq hperm fun y hy y' hy' => request.eq_of_mem_values hy hy'

theorem flagsOf_order :
    flagsOf (order.map Group.item) = if request.parseOnly then ["parse-only"] else [] := by
  have hperm := (horder.map Group.item).filterMap Item.flag?
  change (flagsOf _).Perm (flagsOf _) at hperm
  rw [request.flagsOf_groups] at hperm
  refine eq_of_perm_of_forall_eq hperm ?_
  split <;> simp

theorem acceptable_order : Acceptable declaration (order.map Group.item) where
  allowed option allowed hallowed value hvalue := by
    rw [valuesOf_order horder] at hvalue
    have hmem := request.mem_allowed_of_mem_values hvalue
    rwa [show option.allowed = some allowed from hallowed] at hmem
  single option hlist := by
    rw [valuesOf_order horder]
    cases option with
    | outputForm => cases hform : request.form <;> simp [Request.values, hform]
    | emitConfig => cases hlist
    | explain => exact Nat.zero_le 1
    | log => cases hlog : request.log <;> simp [Request.values, hlog]
  flag := by
    rw [flagsOf_order horder]
    refine List.forall_mem_singleton.mpr ?_
    split <;> decide

/-- The options of a run are those that were requested. -/
theorem ofMatches_order (equation : String) (colour : Bool) :
    Options.ofMatches (.ofItems declaration (order.map Group.item) equation) colour =
      request.options equation colour := by
  have hvalues : ∀ option,
      (Matches.ofItems declaration (order.map Group.item) equation).values option =
        declaration.orDefault option (request.values option) :=
    fun option => congrArg (declaration.orDefault option) (valuesOf_order horder option)
  have hflags := flagsOf_order horder
  clear horder
  rw [Options.ofMatches, Matches.value?, Matches.value?, Matches.value?, Matches.isPresent, hvalues, hvalues,
    hvalues, hvalues]
  show Options.mk _ _ _ ((flagsOf _).contains _) _ _ _ = _
  rw [hflags]
  obtain ⟨form, fractions, parseOnly, log⟩ := request
  cases form <;> cases fractions <;> cases parseOnly <;> cases log <;> rfl

end

/-- **Options may stand in any order** and in any of their spellings, and the equation behind `--` is taken
as it is, also where it is empty or looks like an option. The options of a run, and so its outcome, are the
same for every order of the same groups. -/
theorem ofArguments_order (request : Request) (equation : String) (colour : Bool) {order : List Group}
    (horder : order.Perm request.groups) :
    Options.ofArguments (commandLine order equation) colour =
        .ok (request.options equation colour) ∧
      ∀ other : List Group, other.Perm request.groups →
        (Options.ofArguments (commandLine other equation) colour).map run =
          (Options.ofArguments (commandLine order equation) colour).map run := by
  have hread : ∀ order : List Group, order.Perm request.groups →
      Options.ofArguments (commandLine order equation) colour =
        .ok (request.options equation colour) := by
    intro order horder
    rw [Options.ofArguments, read_commandLine (acceptable_order horder)]
    exact congrArg Except.ok (ofMatches_order horder equation colour)
  refine ⟨hread order horder, fun other hother => ?_⟩
  rw [hread order horder, hread other hother]

/-- Fractions are asked for twice, in front of other options and behind them, and the equation looks like
an option. -/
theorem ofArguments_order_minus_x :
    let json : Group := .valued .outputForm .letterJoined ⟨"json", by decide⟩
    let debug : Group := .valued .log (.equals .log) ⟨"debug", by decide⟩
    let fraction : Group := .valued .emitConfig (.apart .emitConfig) ⟨"frac", by decide⟩
    let order := [fraction, .parseOnly, debug, fraction, json]
    commandLine order "-x = 1" = ["--emit-config", "frac", "--parse-only", "--log=debug",
      "--emit-config", "frac", "-ojson", "--", "-x = 1"] ∧
    Options.ofArguments (commandLine order "-x = 1") false =
      .ok ⟨"-x = 1", "json", ["frac", "frac"], true, none, "debug", false⟩ := by
  intro json debug fraction order
  let request : Request := ⟨some (.letterJoined, ⟨"json", by decide⟩),
    [.apart .emitConfig, .apart .emitConfig], true, some (.equals .log, ⟨"debug", by decide⟩)⟩
  have horder : order.Perm request.groups := by decide
  exact ⟨by decide, (ofArguments_order request "-x = 1" false horder).1⟩

end Quadra.CommandLine
