import Classlet.Path

/-! # Source texts

A loader says what is known about the source file at a path.  `SourceTexts` are sources kept
under their normal paths; they know everything, so that their loader never answers `unknown`. -/

namespace Classlet

/-- What is known about a source file. -/
inductive Loaded where
  | text (source : String)
  | failure (reason : String)
  /-- Nobody has looked yet. -/
  | unknown
  deriving Repr, DecidableEq

/-- Where source texts come from. -/
abbrev Loader := Path → Loaded

/-- Source texts under their paths. -/
structure SourceTexts where
  entries : List (Path × String) := []
  deriving Repr, Inhabited

namespace SourceTexts

/-- Put a source text at a path, in the place of what was there. -/
def add (t : SourceTexts) (p : Path) (source : String) : SourceTexts :=
  let normal := p.normalize
  { entries := (normal, source) :: t.entries.filter fun entry => !decide (entry.1.Same normal) }

def find? (t : SourceTexts) (p : Path) : Option String :=
  (t.entries.find? fun entry => entry.1.Same p).map (·.2)

def loader (t : SourceTexts) : Loader := fun p =>
  match t.find? p with
  | some source => .text source
  | none => .failure ("no such module: " ++ p.text)

end SourceTexts

end Classlet
