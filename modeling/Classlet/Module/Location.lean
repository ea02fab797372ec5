import Classlet.Path
import Classlet.Syntax

/-! # Where modules are

A module is known by the canonical path of its file: the extension is put on, and the path is
normalised.  `Location.resolve` finds the path that an import names, seen from the directory of
the importing module or from the root of the standard library. -/

namespace Classlet.Location

def fileExtension : String := "crv"

/-- Put the extension of source files on a path that does not have it. -/
def withExtension (p : Path) : Path :=
  if p.extension? = some fileExtension then p
  else p.setFileName (p.fileName?.getD "" ++ "." ++ fileExtension)

/-- The path by which a module is known. -/
def canonical (p : Path) : Path := (withExtension p).normalize

/-- The directory against which the imports of a module are resolved. -/
def directory (p : Path) : Path := p.parent?.getD ⟨""⟩

/-- The canonical path of an import, given the path of the importing module. -/
def resolve (target : ImportPath) (importer : Option Path) (libraryRoot : Path) : Path :=
  match target with
  | .relative path => canonical ((importer.elim ⟨""⟩ directory).push ⟨path⟩)
  | .standard parts => canonical (parts.foldl (fun p part => p.push ⟨part⟩) libraryRoot)

/-- The name to which an import is bound when it gives none. -/
def bindingName (p : Path) : String := p.stem?.getD ""

end Classlet.Location
