import Classlet.Interpreter

/-! # Scripts

A script is a root module.  It is parsed before anything runs, so that all its syntax errors are
known together; an error that it does not catch is reported with its trace. -/

namespace Classlet

/-- Why a script did not run to its end. -/
inductive ScriptFailure where
  | unreadable (reason : String)
  | badSyntax (errors : List SyntaxError)
  /-- An error that nothing caught: the name of its class, and its trace. -/
  | uncaught (className traceback : String)
  /-- It was stopped from outside. -/
  | stopped (why : Stop)

namespace ScriptFailure

def message : ScriptFailure → String
  | unreadable reason => reason
  | badSyntax errors => Text.join "\n" (errors.map SyntaxError.describe)
  | uncaught _ traceback => traceback
  | stopped .capacityOverflow => "capacity overflow"
  | stopped _ => ""

def exitCode : ScriptFailure → Nat
  | badSyntax _ => 65
  | unreadable _ => 66
  | stopped .capacityOverflow => 101
  | uncaught .. | stopped _ => 70

end ScriptFailure

namespace Script

variable (e : Engine)

/-- The path of a script that is not in a file. -/
def unnamed : Path := ⟨"<script>"⟩

/-- Run a source text as the root module at a path. -/
def run (p : Path) (source : String) (s : State) : Except ScriptFailure ModuleRef × State :=
  match parse source with
  | .error errors => (.error (.badSyntax errors), s)
  | .ok statements =>
    match evaluateParsed e p (some source) statements none s with
    | (.ok r, s) => (.ok r, s)
    | (.raised error, s) =>
      (.error (.uncaught (s.memory.raisedClassName error.raised) (s.memory.traceback error)), s)
    | (.stopped why, s) => (.error (.stopped why), s)

def runFile (p : Path) (s : State) : Except ScriptFailure ModuleRef × State :=
  match e.loader p with
  | .text source => run e p source s
  | .failure reason => (.error (.unreadable reason), s)
  | .unknown => (.error (.stopped (.needs p)), s)

end Script

end Classlet
