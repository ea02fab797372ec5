import Classlet.Numeral.Read
import Classlet.Path

/-! # Settings of a run

The root of the standard library and the deepest nesting of calls.  Both have a default, which
variables of the environment can override. -/

namespace Classlet

/-- Options of a run. -/
structure Settings where
  /-- The directory of the standard library. -/
  libraryRoot : Path := ⟨"stdlib"⟩
  /-- The deepest nesting of calls of user functions. -/
  maxCallDepth : Nat := 128
  deriving Repr, DecidableEq, Inhabited

namespace Settings

/-- The environment variable for the root of the standard library. -/
def libraryVariable : String := "CORVID_STDLIB"

/-- The environment variable for the deepest nesting of calls. -/
def depthVariable : String := "CORVID_MAX_CALL_DEPTH"

/-- Read a depth: decimal digits behind an optional plus sign, of at most 64 bits. -/
def readDepth? (text : String) : Option Nat :=
  let digits := match text.toList with
    | '+' :: cs => cs
    | cs => cs
  Numeral.digitsUpTo? (Numeral.twoTo 64 - 1) digits

/-- Change the settings where something is given. -/
def override (s : Settings) (root : Option String) (depth : Option Nat) : Settings :=
  { libraryRoot := root.elim s.libraryRoot Path.mk, maxCallDepth := depth.getD s.maxCallDepth }

/-- The defaults with what the environment says; a depth that cannot be read is ignored. -/
def ofEnvironment (environment : String → Option String) : Settings :=
  ({} : Settings).override (environment libraryVariable)
    ((environment depthVariable).bind readDepth?)

/-- Whether the settings are the defaults, comparing paths by their steps. -/
def isDefault (s : Settings) : Bool :=
  decide (s.libraryRoot.Same ({} : Settings).libraryRoot) &&
    s.maxCallDepth == ({} : Settings).maxCallDepth

end Settings

end Classlet
