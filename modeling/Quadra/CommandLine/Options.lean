import Quadra.CommandLine.Grammar

set_option autoImplicit false

/-!
# Options

What a run is asked to do, the options of a command line that ask for it, and how the options of a run
are made of what a command line has for them.
-/

namespace Quadra.CommandLine

/-! ## Options of a run -/

/-- What a run is asked to do. -/
structure Options where
  equation : String
  /-- The name of the report form. -/
  form : String
  /-- The flags of the report. -/
  flags : List String
  /-- Whether the equation is reduced only, and not solved. -/
  parseOnly : Bool
  /-- A diagnostic code to explain instead of any other work. -/
  explain : Option String
  /-- The least level of the events that are shown. -/
  logLevel : String
  colour : Bool
deriving DecidableEq

/-! ## Options that take values -/

/-- The options that take values. -/
inductive ValueOption
  | outputForm
  | emitConfig
  | explain
  | log
deriving DecidableEq

namespace ValueOption

/-- All options, in the order in which they are checked. -/
def all : List ValueOption := [.outputForm, .emitConfig, .explain, .log]

/-- The name behind two dashes. -/
def longName : ValueOption → String
  | .outputForm => "output-form"
  | .emitConfig => "emit-config"
  | .explain => "explain"
  | .log => "log"

/-- The report form has a letter too. -/
def letter? : ValueOption → Option Char
  | .outputForm => some 'o'
  | _ => none

/-- The values that an option allows; any value where there is no list. -/
def allowed : ValueOption → Option (List String)
  | .outputForm => some ["pretty", "verbose", "json", "debug"]
  | .emitConfig => some ["frac"]
  | .explain => none
  | .log => some ["off", "error", "warn", "info", "debug", "trace"]

/-- The value of an option that is given without one, or not at all. -/
def default? : ValueOption → Option String
  | .outputForm => some "pretty"
  | .log => some "off"
  | _ => none

/-- Whether an option may be given again, and takes all the values that follow it. -/
def isList : ValueOption → Bool
  | .emitConfig => true
  | _ => false

/-- Where a code is to be explained, the equation may be missing. -/
def positionalDefault? : ValueOption → Option String
  | .explain => some ""
  | _ => none

end ValueOption

/-! ## Command lines -/

/-- What a command line may contain: the equation, the options with values, and `--parse-only`. -/
def declaration : Declaration ValueOption where
  options := ValueOption.all
  longName := ValueOption.longName
  letter? := ValueOption.letter?
  allowed := ValueOption.allowed
  default? := ValueOption.default?
  isList := ValueOption.isList
  positionalDefault? := ValueOption.positionalDefault?
  flags := ["parse-only"]

/-- The options of a run for what a command line has. -/
def Options.ofMatches (found : Matches ValueOption) (colour : Bool) : Options where
  equation := found.positional
  form := (found.value? .outputForm).getD "pretty"
  flags := found.values .emitConfig
  parseOnly := found.isPresent "parse-only"
  explain := found.value? .explain
  logLevel := (found.value? .log).getD "off"
  colour := colour

/-- The options that a command line asks for. -/
def Options.ofArguments (arguments : List String) (colour : Bool) : Except UsageFault Options := do
  let found ← declaration.read arguments
  return .ofMatches found colour

end Quadra.CommandLine
