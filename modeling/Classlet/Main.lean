import Classlet.CommandLine
import Classlet.FileTree

/-! # The program

Reads the arguments, the environment and the files that a script asks for.  Files are read when a
run stops for one; the run is then started again with what is known by now, so that a script is a
function of the files it reads. -/

namespace Classlet

/-- The greatest fuel that the program gives to a run. -/
def runFuel : Nat := Numeral.twoTo 62

/-- Whether the code of a system error, which can come negated, is the expected one. -/
def isErrorCode (expected code : UInt32) : Bool := code = expected || 0 - code = expected

/-- The wording of a failure to read a file. -/
def readFailureText (error : IO.Error) : String :=
  match error with
  | .noFileOrDirectory .. => ReadFailure.message .missing
  | .permissionDenied .. => ReadFailure.message .forbidden
  | .inappropriateType _ code _ =>
    ReadFailure.message (if isErrorCode 20 code then .notADirectory else .isADirectory)
  | .invalidArgument _ code _ =>
    ReadFailure.message (if isErrorCode 36 code then .tooLong else .invalidName)
  | .otherError .. | .userError .. => "stream did not contain valid UTF-8"
  | _ => toString error

def readSource (p : Path) : IO Loaded := do
  try
    let source ← IO.FS.readFile p.text
    pure (.text source)
  catch error => pure (.failure (readFailureText error))

/-- The loader of the files that have been read. -/
def knownFiles (known : List (Path × Loaded)) : Loader := fun p =>
  ((known.find? fun entry => entry.1 = p).map (·.2)).getD .unknown

/-- Run the program, reading files until it needs no more, at most `count` of them. -/
def performReading (environment : String → Option String) (arguments : List String) :
    Nat → List (Path × Loaded) → IO CommandLine.Report
  | 0, _ => pure { exit := 70 }
  | count + 1, known => do
    let report := CommandLine.perform runFuel (knownFiles known) environment arguments
    match report.needs with
    | none => pure report
    | some p =>
      let loaded ← readSource p
      performReading environment arguments count ((p, loaded) :: known)

end Classlet

/-- The command line program. -/
def main (arguments : List String) : IO UInt32 := do
  let library ← IO.getEnv Classlet.Settings.libraryVariable
  let depth ← IO.getEnv Classlet.Settings.depthVariable
  let environment (name : String) : Option String :=
    if name = Classlet.Settings.libraryVariable then library
    else if name = Classlet.Settings.depthVariable then depth
    else none
  let report ← Classlet.performReading environment arguments Classlet.runFuel []
  (← IO.getStdout).putStr report.stdout
  (← IO.getStderr).putStr report.stderr
  pure report.exit.toUInt32
