set_option autoImplicit false

/-!
# Grammar of command lines

A command line has one positional argument, options that take values, and flags, which take none. A
`Declaration` says which options and flags there are, and `Declaration.read` finds what has been given
for each of them (`Matches`).

Arguments are read from left to right. One that starts with a dash names options, until `--`, after
which every argument is positional. An option takes its value from the same argument, behind the name
or a `=`, or else from the next argument that does not start with a dash; an option with a list of
values takes all of these. Faults of single arguments come first, then a missing positional argument,
then an option without a value, then values that are not allowed, and then repetitions.
-/

namespace Quadra.CommandLine

/-- Why a command line is not run. -/
inductive UsageFault
  | helpRequested
  | versionRequested
  | unknownArgument
  | missingEquation
  | emptyValue
  | invalidValue
  | repeatedOption
deriving DecidableEq

/-- What a command line may contain, by the names of the options that take values. -/
structure Declaration (Name : Type) where
  /-- The options, in the order in which they are checked. -/
  options : List Name
  /-- The name behind two dashes. -/
  longName : Name → String
  /-- The letter behind one dash. -/
  letter? : Name → Option Char
  /-- The values that an option allows; any value where there is no list. -/
  allowed : Name → Option (List String)
  /-- The value of an option that is given without one, or not at all. -/
  default? : Name → Option String
  /-- Whether an option may be given again, and takes all the values that follow it. -/
  isList : Name → Bool
  /-- What the positional argument is where it is missing and the option is given. -/
  positionalDefault? : Name → Option String
  /-- The flags, by their names. -/
  flags : List String

/-- The values of an option, or its default where there are none. -/
def Declaration.orDefault {Name : Type} (declaration : Declaration Name) (option : Name) :
    List String → List String
  | [] => (declaration.default? option).toList
  | values => values

/-- What has been found in a command line. -/
structure Matches (Name : Type) where
  positional : String
  /-- The values of each option, or its default. -/
  values : Name → List String
  /-- The flags that are given. -/
  flags : List String

/-- The first value of an option. -/
def Matches.value? {Name : Type} (found : Matches Name) (option : Name) : Option String :=
  (found.values option).head?

/-- Whether a flag is given. -/
def Matches.isPresent {Name : Type} (found : Matches Name) (flag : String) : Bool :=
  found.flags.contains flag

/-! ## Reading arguments -/

/-- How often an option was given, and its values in order. -/
structure Usage where
  count : Nat
  values : List String

/-- The arguments read so far. -/
structure Given (Name : Type) where
  positional : Option String
  usage : Name → Usage
  flags : List String
  /-- The option that the next value belongs to. -/
  awaiting : Option Name
  /-- Whether `--` was read. -/
  trailing : Bool

namespace Given

variable {Name : Type}

/-- No arguments. -/
def start : Given Name := ⟨none, fun _ => ⟨0, []⟩, [], none, false⟩

/-- One more flag. -/
def addFlag (given : Given Name) (flag : String) : Given Name :=
  { given with flags := given.flags ++ [flag], awaiting := none }

variable [DecidableEq Name] (declaration : Declaration Name)

/-- One more value of an option. -/
def addValue (given : Given Name) (option : Name) (value : String) : Given Name :=
  { given with
    usage := fun other =>
      let usage := given.usage other
      if other = option then { usage with values := usage.values ++ [value] } else usage
    awaiting := if declaration.isList option then some option else none }

/-- An option whose value stands in the same argument, or is awaited. -/
def addOption (given : Given Name) (option : Name) (value : Option String) : Given Name :=
  let counted : Given Name :=
    { given with
      usage := fun other =>
        let usage := given.usage other
        if other = option then { usage with count := usage.count + 1 } else usage }
  match value with
  | some value => { counted.addValue declaration option value with awaiting := none }
  | none => { counted with awaiting := some option }

/-- The argument of a name in full: the name up to the first `=`, and a value behind it. -/
def addLong (given : Given Name) (text : List Char) : Except UsageFault (Given Name) :=
  let name := String.ofList (text.takeWhile (· != '='))
  let value := match text.dropWhile (· != '=') with
    | [] => none
    | rest => some (String.ofList (rest.dropWhile (· == '=')))
  match declaration.options.find? fun option => declaration.longName option == name with
  | some option => .ok (given.addOption declaration option value)
  | none =>
      if declaration.flags.contains name then .ok (given.addFlag name)
      else if name = "help" then .error .helpRequested
      else if name = "version" then .error .versionRequested
      else .error .unknownArgument

/-- The argument of a single letter, with the rest as the value of its option. -/
def addShort (given : Given Name) (letter : Char) (rest : List Char) :
    Except UsageFault (Given Name) :=
  match declaration.options.find? fun option => declaration.letter? option == some letter with
  | some option =>
      let value := if rest.isEmpty then none
        else some (String.ofList (rest.dropWhile (· == '=')))
      .ok (given.addOption declaration option value)
  | none =>
      if letter = 'h' then .error .helpRequested
      else if letter = 'V' then .error .versionRequested
      else .error .unknownArgument

/-- An argument that is no option: the value of the option that awaits one, or positional. -/
def addPlain (given : Given Name) (text : List Char) : Except UsageFault (Given Name) :=
  match given.trailing, given.awaiting with
  | false, some option => .ok (given.addValue declaration option (.ofList text))
  | _, _ =>
      match given.positional with
      | some _ => .error .unknownArgument
      | none => .ok { given with positional := some (.ofList text) }

/-- One more argument. -/
def add (given : Given Name) (argument : String) : Except UsageFault (Given Name) :=
  if given.trailing then given.addPlain declaration argument.toList
  else match argument.toList with
    | ['-', '-'] => .ok { given with trailing := true }
    | '-' :: '-' :: rest => given.addLong declaration (rest.dropWhile (· == '-'))
    | '-' :: letter :: rest => given.addShort declaration letter rest
    | text => given.addPlain declaration text

/-- All arguments, from left to right. -/
def read : Given Name → List String → Except UsageFault (Given Name)
  | given, [] => .ok given
  | given, argument :: rest => do
      let given ← given.add declaration argument
      given.read rest

/-! ## Checking the arguments -/

/-- The values of an option, or its default. -/
def values (given : Given Name) (option : Name) : List String :=
  declaration.orDefault option (given.usage option).values

/-- Whether an option is given. -/
def isGiven (given : Given Name) (option : Name) : Bool := decide (0 < (given.usage option).count)

/-- The positional argument. It may be missing where an option stands for it. -/
def positional? (given : Given Name) : Option String :=
  match given.positional with
  | some positional => some positional
  | none => (declaration.options.filter given.isGiven).findSome? declaration.positionalDefault?

/-- Whether an option is given without any value, and has no default. -/
def lacksValue (given : Given Name) (option : Name) : Bool :=
  given.isGiven option && (given.values declaration option).isEmpty

/-- Whether all values of an option are in its list. -/
def valuesAllowed (given : Given Name) (option : Name) : Bool :=
  match declaration.allowed option with
  | some allowed => (given.values declaration option).all allowed.contains
  | none => true

/-- Whether an option that counts once is given again. -/
def repeats (given : Given Name) (option : Name) : Bool :=
  !declaration.isList option && decide (1 < (given.usage option).count)

/-- Whether a flag is given again. -/
def repeatsFlag (given : Given Name) (flag : String) : Bool := decide (1 < given.flags.count flag)

/-- What has been given, if nothing is missing, empty, not allowed or repeated. -/
def check (given : Given Name) : Except UsageFault (Matches Name) :=
  match given.positional? declaration with
  | none => .error .missingEquation
  | some positional =>
      if declaration.options.any (given.lacksValue declaration) then .error .emptyValue
      else if !declaration.options.all (given.valuesAllowed declaration) then .error .invalidValue
      else if declaration.options.any (given.repeats declaration) ||
        declaration.flags.any given.repeatsFlag then .error .repeatedOption
      else .ok ⟨positional, given.values declaration, given.flags⟩

end Given

/-- What a command line has for each part of a declaration. -/
def Declaration.read {Name : Type} [DecidableEq Name] (declaration : Declaration Name)
    (arguments : List String) : Except UsageFault (Matches Name) := do
  let given ← Given.start.read declaration arguments
  given.check declaration

end Quadra.CommandLine
