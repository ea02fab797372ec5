import Classlet.Grammar.Statement
import Classlet.Interpreter.Statement
import Classlet.Module.Exports
import Classlet.Module.Location

/-! # Modules

A module is run once and then kept under its canonical path.  An import first looks for a kept
module; a path that leads back to the importing module or to one of the modules that led to it is
refused. -/

namespace Classlet

open Eval

/-- A module that has not run.  It is named after its file, or after its source if the path names no
file. -/
def Module.ofSource (p : Path) (parent : Option ModuleRef) (context : ContextId)
    (unit : SourceUnit) : Module :=
  let name := Location.bindingName p
  { name := if name.isEmpty then unit.name else name
    path := p
    parent := parent
    context := context
    unit := unit }

/-! ### The import chain -/

/-- A module, the module that imported it, and so on, at most `fuel` of them. -/
def Memory.importersFrom (m : Memory) : Nat → ModuleRef → List ModuleRef
  | 0, _ => []
  | fuel + 1, r => r :: ((m.moduleInfo r).parent.elim [] (importersFrom m fuel))

/-- The import chain of a module.  An importer is older than what it imports, which bounds the
length. -/
def Memory.importChain (m : Memory) (r : ModuleRef) : List ModuleRef :=
  m.importersFrom (r.index + 1) r

/-- Whether a path is the path of a module of the import chain. -/
def Memory.inImportChain (m : Memory) (r : ModuleRef) (p : Path) : Bool :=
  (m.importChain r).any fun q => (m.moduleInfo q).path.Same p

/-! ### The kept modules -/

/-- The module kept under a path. -/
def State.cached? (s : State) (p : Path) : Option ModuleRef :=
  (s.cache.find? fun entry => entry.1.Same p).map (·.2)

def State.keep (s : State) (p : Path) (r : ModuleRef) : State :=
  { s with cache := (p, r) :: s.cache.filter fun entry => !decide (entry.1.Same p) }

/-! ### Running modules -/

variable (e : Engine)

/-- A module behind a new context with an empty scope. -/
def openModule (p : Path) (source : Option String) (parent : Option ModuleRef) : Eval ModuleRef :=
  fun s =>
    let (c, scopes) := s.scopes.openContext (some s.root)
    let d := Module.ofSource p parent c ⟨p.text, source⟩
    remember (fun m => m.newModule d) { s with scopes := scopes }

/-- A new module with an empty scope. -/
def newModule (p : Path) (source : Option String) (parent : Option ModuleRef) :
    Eval ModuleRef := do
  reclaim
  openModule p source parent

/-- Remember the trace of an error that leaves a module. -/
def tracing (x : Eval Completion) : Eval Completion := fun s =>
  match x s with
  | (.raised error, s) => (.raised error, { s with lastTrace := error.trace })
  | (outcome, s) => (outcome, s)

/-- Compute the exports of a module that has run. -/
def publish (r : ModuleRef) : Eval Unit := fun s =>
  let c := (s.memory.moduleInfo r).context
  match computeExports s.memory (s.scopes.baseBindings c) with
  | .ok exports => (.ok (), { s with memory := s.memory.setExports r exports })
  | .error cause => fail cause s

def runModule (p : Path) (source : Option String) (statements : List Statement)
    (parent : Option ModuleRef) : Eval ModuleRef := do
  let r ← newModule p source parent
  let d ← readMemory fun m => m.moduleInfo r
  let activation : Activation := ⟨d.context, d.unit, moduleScope, some r⟩
  let _ ← tracing (withActivation activation (e.execStatements statements))
  publish r
  pure r

/-- Run statements as the module at a path, and keep it. -/
def evaluateParsed (p : Path) (source : Option String) (statements : List Statement)
    (parent : Option ModuleRef) : Eval ModuleRef := do
  let canonical := Location.canonical p
  let r ← runModule e canonical source statements parent
  Eval.modify fun s => s.keep canonical r
  pure r

/-- Run a source text as the module at a path. -/
def evaluateSource (p : Path) (source : String) (parent : Option ModuleRef) : Eval ModuleRef :=
  match parse source with
  | .ok statements => evaluateParsed e p (some source) statements parent
  | .error errors => fail (.badSource p errors)

/-- Ask the loader for a source text. -/
def load (p : Path) : Eval String := do
  Eval.modify fun s => { s with loads := s.loads.push p }
  match e.loader p with
  | .text source => pure source
  | .failure reason => fail (.cannotImport p reason)
  | .unknown => stop (.needs p)

/-- Load and run a module that is not kept yet. -/
def importNew (p : Path) (parent : Option ModuleRef) : Eval ModuleRef := do
  if ← readMemory fun m => parent.any fun r => m.inImportChain r p then fail (.cyclicImport p)
  else
    let source ← load e p
    evaluateSource e p source parent

def importPath (target : ImportPath) (parent : Option ModuleRef) : Eval Path :=
  readMemory fun m =>
    Location.resolve target (parent.map fun r => (m.moduleInfo r).path) e.settings.libraryRoot

def importModule (target : ImportPath) (parent : Option ModuleRef) : Eval ModuleRef := do
  let p ← importPath e target parent
  match ← read fun s => s.cached? p with
  | some r => pure r
  | none => importNew e p parent

end Classlet
