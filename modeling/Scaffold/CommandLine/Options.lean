/-
Scaffold/CommandLine/Options.lean

The options of the command line.

An option takes a value, after an equals sign or as the next argument, or is a
switch.  One is in between: `--only-missing` stands for itself or takes a
truth value after an equals sign.  No option may be given twice, and there are
no arguments besides options.

`Options.parse` reads arguments from left to right and stops at the first one
that is wrong (`UsageError`).
-/
import Scaffold.Settings.Basic

namespace Scaffold

/-- The options that take a value. -/
inductive ValueOption where
  | src
  | output
  | pattern
  | framework
  | config
  | dumpModel
deriving DecidableEq, Repr

namespace ValueOption

def all : List ValueOption := [src, output, pattern, framework, config, dumpModel]

def name : ValueOption → String
  | src => "--src"
  | output => "--output"
  | pattern => "--pattern"
  | framework => "--framework"
  | config => "--config"
  | dumpModel => "--dump-model"

/-- Whether the value is a path, which cannot be empty. -/
def isPath : ValueOption → Bool
  | pattern | framework => false
  | _ => true

end ValueOption

/-- The options without a value. -/
inductive Switch where
  | overwrite
  | verbose
  | dryRun
  | strict
deriving DecidableEq, Repr

namespace Switch

def all : List Switch := [overwrite, verbose, dryRun, strict]

/-- The ways a switch is written. -/
def names : Switch → List String
  | overwrite => ["--overwrite"]
  | verbose => ["--verbose", "-v"]
  | dryRun => ["--dry-run"]
  | strict => ["--strict"]

end Switch

/-- Why arguments make no options. -/
inductive UsageError where
  | unknown (argument : String)
  | repeated (argument : String)
  | missingValue (option : String)
  | emptyValue (option : String)
  | unexpectedValue (argument : String)
  | notTruth (value : String)
deriving DecidableEq, Repr

/-- What is wrong, in words. -/
def UsageError.message : UsageError → String
  | unknown argument => "unexpected argument '" ++ argument ++ "'"
  | repeated argument => "'" ++ argument ++ "' cannot be used multiple times"
  | missingValue option => "a value is required for '" ++ option ++ "'"
  | emptyValue option => "the value for '" ++ option ++ "' is empty"
  | unexpectedValue argument => "unexpected value in '" ++ argument ++ "'"
  | notTruth value => "invalid value '" ++ value ++ "' for '--only-missing'"

/-- The options of one call. -/
structure Options where
  values : List (ValueOption × String)
  switches : List Switch
  onlyMissing : Option Bool
deriving DecidableEq, Repr

namespace Options

def empty : Options := ⟨[], [], none⟩

def value? (o : Options) (v : ValueOption) : Option String :=
  (o.values.find? (fun x => x.1 == v)).map (·.2)

def has (o : Options) (s : Switch) : Bool := o.switches.contains s

/-! ### Reading -/

def setValue (o : Options) (v : ValueOption) (value : String) : Except UsageError Options :=
  if (o.value? v).isSome then .error (.repeated v.name)
  else if v.isPath && value.isEmpty then .error (.emptyValue v.name)
  else .ok { o with values := (v, value) :: o.values }

def setSwitch (o : Options) (s : Switch) (argument : String) : Except UsageError Options :=
  if o.has s then .error (.repeated argument) else .ok { o with switches := s :: o.switches }

/-- How the option that takes a truth value is written. -/
def onlyMissingName : String := "--only-missing"

/-- Sets the option that takes a truth value. -/
def setOnlyMissing (o : Options) (value : Option String) : Except UsageError Options :=
  if o.onlyMissing.isSome then .error (.repeated onlyMissingName)
  else
    match value with
    | none | some "true" => .ok { o with onlyMissing := some true }
    | some "false" => .ok { o with onlyMissing := some false }
    | some other => .error (.notTruth other)

/-- An argument cut at its first equals sign. -/
def splitArgument (argument : String) : String × Option String :=
  let (name, rest) := argument.toList.span (· != '=')
  (String.ofList name, if rest.isEmpty then none else some (String.ofList rest.tail))

/-- Whether the next argument can be a value: one that does not look like an option. -/
def canBeValue (argument : String) : Bool :=
  argument == "-" || argument.toList.head? != some '-'

/-- What an argument is, judged by itself. -/
inductive Argument where
  /-- The end of the options. -/
  | finish
  | valued (v : ValueOption) (value : Option String)
  | onlyMissing (value : Option String)
  | switch (s : Switch)
  | wrong (e : UsageError)

/-- Reads one argument. -/
def classify (argument : String) : Argument :=
  let (name, value) := splitArgument argument
  if argument = "--" then .finish
  else if name = onlyMissingName then .onlyMissing value
  else
    match ValueOption.all.find? (fun v => v.name == name) with
    | some v => .valued v value
    | none =>
      match Switch.all.find? (fun s => s.names.contains name) with
      | some s => if value.isSome then .wrong (.unexpectedValue argument) else .switch s
      | none => .wrong (.unknown argument)

/-- The options of some arguments, on top of those read before; `pending` is an option that waits
for its value. -/
def parseFrom (pending : Option ValueOption) (o : Options) :
    List String → Except UsageError Options
  | [] =>
    match pending with
    | some v => .error (.missingValue v.name)
    | none => .ok o
  | argument :: rest =>
    match pending with
    | some v =>
      if canBeValue argument then do parseFrom none (← o.setValue v argument) rest
      else .error (.missingValue v.name)
    | none =>
      match classify argument with
      | .finish =>
        match rest with
        | [] => .ok o
        | extra :: _ => .error (.unknown extra)
      | .valued v none => parseFrom (some v) o rest
      | .valued v (some value) => do parseFrom none (← o.setValue v value) rest
      | .onlyMissing value => do parseFrom none (← o.setOnlyMissing value) rest
      | .switch s => do parseFrom none (← o.setSwitch s argument) rest
      | .wrong e => .error e

def parse (arguments : List String) : Except UsageError Options := parseFrom none empty arguments

/-! ### Meaning -/

/-- The settings the options override. -/
def overrides (o : Options) : Settings :=
  { src := o.value? .src
    output := o.value? .output
    pattern := o.value? .pattern
    framework := o.value? .framework
    overwrite := if o.has .overwrite then some true else none
    onlyMissing := o.onlyMissing
    exclude := [] }

end Options

end Scaffold
