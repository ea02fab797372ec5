import Classlet.Interpreter
import Classlet.Proofs.Grammar.WellFormed

/-! # Calm programs

The only loops of a calm fragment are counted ones, and no list can come to contain itself, since
nothing is stored under an index and `append` is not used.

A program is a main module with the texts that it can import.  An import lands if it is resolved to
a canonical path, whatever module of the program it is resolved for: modules are kept under
canonical paths, while the import chain is searched for the path as it was resolved. -/

namespace Classlet

open Fragment

/-- Whether an expression takes an element of an object. -/
def Expr.isIndex : Expr → Bool
  | index _ _ => true
  | _ => false

/-- A fragment is no loop without a count, no assignment to an index and no use of `append`. -/
def Fragment.Calm : Fragment → Prop
  | expr (.var name) => name ≠ Builtin.append.name
  | statement _ (.mk _ (.whileDo _ _)) | statement _ (.mk _ (.loop _)) => False
  | statement _ (.mk _ (.assign targets _)) => ∀ x ∈ targets, x.isIndex = false
  | _ => True

/-- A main module, by its path, and what it can import. -/
structure Program where
  settings : Settings
  texts : SourceTexts
  main : Path

namespace Program

variable (P : Program)

/-- The engine of a program with some fuel. -/
def engine (fuel : Nat) : Engine := Classlet.engine P.settings P.texts.loader fuel

/-- The paths that modules of a program can have: that of the main module, and the canonical paths
of the texts. -/
def Home (q : Path) : Prop :=
  q = Location.canonical P.main ∨ (Location.canonical q = q ∧ (P.texts.find? q).isSome)

/-- What an import means for the module at a path. -/
def resolve (target : ImportPath) (importer : Path) : Path :=
  Location.resolve target (some importer) P.settings.libraryRoot

/-- An import is resolved to canonical paths. -/
def Lands (target : ImportPath) : Prop :=
  ∀ q, P.Home q → Location.canonical (P.resolve target q) = P.resolve target q

/-- If a fragment is an import, it lands. -/
def ImportsLand : Fragment → Prop
  | statement _ (.mk _ (.importModule target _)) => P.Lands target
  | _ => True

/-- A fragment of a text that is calm and whose imports land. -/
structure Allows (x : Fragment) : Prop where
  calm : x.Calm
  imports : P.ImportsLand x
  attributes : x.AttributesNamed

/-- The statements of a text are calm, and their imports land. -/
def Accepts (source : String) : Prop :=
  ∀ code, parse source = .ok code →
    Throughout Calm (ofBody .module code) ∧ Throughout P.ImportsLand (ofBody .module code)

variable {P}

theorem Accepts.allows {source : String} {code : List Statement} (h : P.Accepts source)
    (hparse : parse source = .ok code) : Throughout P.Allows (ofBody .module code) := by
  intro x hx y hy
  obtain ⟨hcalm, himports⟩ := h code hparse
  exact ⟨hcalm x hx y hy, himports x hx y hy, (parse_formed hparse x hx y hy).attributes⟩

@[simp] theorem engine_settings : ∀ fuel, (P.engine fuel).settings = P.settings
  | 0 => rfl
  | _ + 1 => rfl

@[simp] theorem engine_loader : ∀ fuel, (P.engine fuel).loader = P.texts.loader
  | 0 => rfl
  | _ + 1 => rfl

end Program

end Classlet
