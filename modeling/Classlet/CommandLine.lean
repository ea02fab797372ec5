import Classlet.Script

/-! # The command line

The arguments are a script and two options with a value each.  The value of an option is the next
argument or follows an equals sign; an option is given at most once, and what comes behind `--`
is no option.  Options override the environment.

`CommandLine.perform` is the whole program but for reading and writing: it takes the arguments,
the environment and a loader, and says what is printed and with which status the program ends. -/

namespace Classlet.CommandLine

/-! ### Arguments -/

/-- What the arguments say. -/
structure Options where
  script : Option String := none
  libraryRoot : Option String := none
  maxCallDepth : Option Nat := none
  deriving Repr, DecidableEq

/-- The options with a value. -/
inductive Flag where
  | libraryRoot
  | maxCallDepth
  deriving Repr, DecidableEq

/-- What the program is asked to do. -/
inductive Request where
  | help
  | run (script : String) (options : Options)
  deriving Repr, DecidableEq

def Flag.ofName? (name : String) : Option Flag :=
  if name = "--stdlib" then some .libraryRoot
  else if name = "--max-call-depth" then some .maxCallDepth
  else none

/-- Give an option its value: a path is not empty, and a depth is a number. -/
def Options.set (o : Options) (flag : Flag) (value : String) : Option Options :=
  match flag with
  | .libraryRoot =>
    if o.libraryRoot.isSome || value.isEmpty then none
    else some { o with libraryRoot := some value }
  | .maxCallDepth =>
    if o.maxCallDepth.isSome then none
    else (Settings.readDepth? value).map fun n => { o with maxCallDepth := some n }

/-- Name the script, which is done once. -/
def Options.setScript (o : Options) (script : String) : Option Options :=
  if o.script.isSome || script.isEmpty then none else some { o with script := some script }

/-- The request of complete arguments. -/
def Options.request (o : Options) : Option Request := o.script.map fun script => .run script o

/-- Whether an argument is an option and no value. -/
def isOption (argument : String) : Bool :=
  match argument.toList with
  | '-' :: _ :: _ => true
  | _ => false

/-- Split an argument at its first equals sign. -/
def splitEquals (argument : String) : String × Option String :=
  let cs := argument.toList
  match cs.dropWhile (· != '=') with
  | [] => (argument, none)
  | _ :: value => (String.ofList (cs.takeWhile (· != '=')), some (String.ofList value))

/-- Read arguments none of which is an option. -/
def readScripts (o : Options) : List String → Option Request
  | [] => o.request
  | argument :: more =>
    match o.setScript argument with
    | some o => readScripts o more
    | none => none

/-- Read arguments; `pending` is an option that waits for its value. -/
def readArguments (o : Options) (pending : Option Flag) : List String → Option Request
  | [] => if pending.isSome then none else o.request
  | argument :: more =>
    match pending with
    | some flag =>
      if isOption argument then none
      else (o.set flag argument).bind fun o => readArguments o none more
    | none =>
      if argument = "--" then readScripts o more
      else if argument = "--help" || "-h".toList.isPrefixOf argument.toList then some .help
      else if !isOption argument then
        (o.setScript argument).bind fun o => readArguments o none more
      else
        match splitEquals argument with
        | (name, some value) =>
          match Flag.ofName? name with
          | some flag => (o.set flag value).bind fun o => readArguments o none more
          | none => none
        | (name, none) =>
          match Flag.ofName? name with
          | some flag => readArguments o (some flag) more
          | none => none

/-- The request of a list of arguments, if they are well-formed. -/
def request? (arguments : List String) : Option Request := readArguments {} none arguments

/-! ### Running -/

/-- What the program does. -/
structure Report where
  exit : Nat
  stdout : String := ""
  stderr : String := ""
  /-- A file that has to be read before the report is final. -/
  needs : Option Path := none
  deriving Repr, DecidableEq

def usage : String := "Usage: corvid [OPTIONS] <SCRIPT>\n"

/-- The text that explains the arguments. -/
def help : String :=
  "Run corvid scripts\n\n" ++ usage ++
    "\nArguments:\n  <SCRIPT>  Script to run\n\nOptions:\n" ++
    "      --stdlib <STDLIB>\n" ++
    "          Root directory of the standard library (overrides CORVID_STDLIB)\n" ++
    "      --max-call-depth <MAX_CALL_DEPTH>\n" ++
    "          Maximum depth of nested calls (overrides CORVID_MAX_CALL_DEPTH)\n" ++
    "  -h, --help\n          Print help\n"

/-- The report of a script that has ended. -/
def reportOf : Except ScriptFailure ModuleRef × State → Report
  | (.ok _, s) => { exit := 0, stdout := s.output }
  | (.error (.stopped (.needs p)), s) => { exit := 70, stdout := s.output, needs := some p }
  | (.error failure, s) =>
    { exit := failure.exitCode, stdout := s.output, stderr := failure.message ++ "\n" }

def perform (fuel : Nat) (loader : Loader) (environment : String → Option String)
    (arguments : List String) : Report :=
  match request? arguments with
  | none => { exit := 2, stderr := usage }
  | some .help => { exit := 0, stdout := help }
  | some (.run script options) =>
    let settings :=
      (Settings.ofEnvironment environment).override options.libraryRoot options.maxCallDepth
    reportOf (Script.runFile (engine settings loader fuel) ⟨script⟩ State.initial)

end Classlet.CommandLine
