import Classlet.Proofs.Run.Imports

/-! # Which module imports

An import names a path that is seen from the directory of the importing module.  The code that is
running imports for the module whose evaluation began last and has not ended (`Linked.current_eq`),
and a call of a function changes nothing about that: the body of a function imports as the code
does that calls it.  So a relative import finds what stands beside the module that is being
evaluated (`Moment.relative_imports_follow_evaluation`).  That is the module in which the import
stands if the function is called for its own module, and not if it is called for another one
(`function_imports_beside_caller`). -/

namespace Classlet

open Eval

/-- Import the module at a resolved path for an importing module. -/
def importAt (e : Engine) (p : Path) (importer : Option ModuleRef) : Eval ModuleRef := do
  match ← read fun s => s.cached? p with
  | some r => pure r
  | none => importNew e p importer

theorem importModule_eq_importAt {e : Engine} {target : ImportPath} {importer : Option ModuleRef}
    {p : Path} {s : State} (hp : importPath e target importer s = (.ok p, s)) :
    importModule e target importer s = importAt e p importer s := by
  cases hcached : s.cached? p with
  | some r => simp only [importModule, importAt, bind_apply, hp, Eval.read, hcached]
  | none => simp only [importModule, importAt, bind_apply, hp, Eval.read, hcached]

/-- The code that runs imports for the module that was entered last. -/
theorem Linked.current_eq {k : Memory} {current : Option ModuleRef} {pending : List Pending}
    (h : Linked k current pending) :
    current = (pending.filterMap Pending.running?).head?.map Running.ref := by
  induction h with
  | idle hcurrent => exact hcurrent
  | block _ _ _ ih => exact ih
  | call _ _ ih => exact ih
  | body _ _ _ ih => exact ih
  | module hcurrent _ _ _ => exact hcurrent

namespace Moment

variable {m₀ m : Moment}

/-- The directory of the module whose evaluation began last and has not ended.  Where none is being
evaluated it is the working directory. -/
def directory (m : Moment) : Path := m.paths.head?.elim ⟨""⟩ Location.directory

theorem directory_of_running {x : Running} {rest : List Running} (h : m.running = x :: rest) :
    m.directory = Location.directory (m.state.memory.moduleInfo x.ref).path := by
  rw [directory, paths, h]
  rfl

/-- The body of a function is run where the code is run that calls it. -/
theorem directory_enterBody (m : Moment) (c : ContextId) (unit : SourceUnit) (name : String) :
    (m.enterBody c unit name).directory = m.directory := rfl

theorem IsLinked.importer_eq (h : m.IsLinked) :
    m.state.activation.module = m.running.head?.map Running.ref :=
  Linked.current_eq h

theorem importPath_relative (m : Moment) (e : Engine) (path : String) :
    importPath e (.relative path) (m.running.head?.map Running.ref) m.state =
      (.ok (Location.canonical (m.directory.push ⟨path⟩)), m.state) := by
  unfold importPath readMemory directory paths
  cases m.running <;> rfl

theorem IsLinked.execKind_importModule (h : m.IsLinked) (settings : Settings) (loader : Loader)
    (fuel : Nat) (path : String) (newName : Option String) :
    execKind (engine settings loader (fuel + 1)) (.importModule (.relative path) newName) m.state =
      (do
        let r ← importAt (engine settings loader fuel)
          (Location.canonical (m.directory.push ⟨path⟩)) (m.running.head?.map Running.ref)
        let name ← readMemory fun k => newName.getD (k.moduleInfo r).name
        assign (← context) name (.module r)
        pure Completion.normal) m.state := by
  have himport := importModule_eq_importAt
    (m.importPath_relative (engine settings loader fuel) path)
  have hread : read (fun s => s.activation.module) m.state =
      (.ok (m.running.head?.map Running.ref), m.state) := by
    rw [← h.importer_eq]
    rfl
  unfold execKind completing importAs
  simp only [bind_apply, hread, engine, himport]
  rcases importAt _ _ _ m.state with ⟨r | error | why, s⟩
  · dsimp only [readMemory, context, Eval.read]
  · rfl
  · rfl

/-- **Relative imports follow evaluation.**  What the host asks of an interpreter on which nothing
runs takes steps.  At every moment that comes of such steps, an import statement with a relative
path imports what the path means in the directory of the module whose evaluation began last and has
not ended, and the body of a function that is called is no other place in this. -/
theorem relative_imports_follow_evaluation (hidle : m₀.Idle) (h : m₀.Leads m) :
    (∀ (settings : Settings) (loader : Loader) (fuel : Nat) (call : HostCall), ∃ hosted,
      m₀.Leads { m₀ with
        state := (call.run (engine settings loader fuel) m₀.state).2, hosted := hosted }) ∧
    (∀ x rest, m.running = x :: rest →
      m.directory = Location.directory (m.state.memory.moduleInfo x.ref).path) ∧
    (∀ (c : ContextId) (f : Function), (m.enterBody c f.unit f.name).directory = m.directory) ∧
    ∀ (settings : Settings) (loader : Loader) (fuel : Nat) (path : String)
      (newName : Option String),
      execKind (engine settings loader (fuel + 1)) (.importModule (.relative path) newName)
          m.state =
        (do
          let r ← importAt (engine settings loader fuel)
            (Location.canonical (m.directory.push ⟨path⟩)) (m.running.head?.map Running.ref)
          let name ← readMemory fun k => newName.getD (k.moduleInfo r).name
          assign (← context) name (.module r)
          pure Completion.normal) m.state := by
  have hlinked := (h.nested hidle).linked
  refine ⟨fun settings loader fuel => ?_, fun x rest => directory_of_running,
    fun c f => m.directory_enterBody c f.unit f.name, ?_⟩
  · exact HostCall.leads settings loader fuel hidle.fit hidle.pending
  · exact hlinked.execKind_importModule

/-- The module `app/main` imports what stands beside it. -/
theorem relative_imports_follow_evaluation_beside_main : ∃ m : Moment, start.Leads m ∧
    m.directory = ⟨"app"⟩ ∧
    execKind (engine {} (fun _ => .unknown) 1) (.importModule (.relative "./b") none) m.state =
      (do
        let r ← importAt (engine {} (fun _ => .unknown) 0) ⟨"app/b.crv"⟩ (some ⟨0⟩)
        let name ← readMemory fun k => (k.moduleInfo r).name
        assign (← context) name (.module r)
        pure Completion.normal) m.state := by
  let s := (openModule (Location.canonical ⟨"app/main"⟩) none none State.initial).2
  let m := start.enter s ⟨⟨"app/main"⟩, true, ⟨0⟩, State.initial.activation, State.initial.depth⟩
  obtain ⟨hsize, hdirectory, hpath⟩ : State.initial.memory.modules.size = 0 ∧
      m.directory = ⟨"app"⟩ ∧
      Location.canonical ((⟨"app"⟩ : Path).push ⟨"./b"⟩) = ⟨"app/b.crv"⟩ := by
    decide +kernel
  have hnew := openModule_of_size (Location.canonical ⟨"app/main"⟩) none none hsize
  have hstep : start.Step m := .module (.evaluated rfl hnew)
  have hleads := hstep.leads fit_start (Fit.enter fit_start hnew)
  have himports := (relative_imports_follow_evaluation idle_start hleads).2.2.2 {}
    (fun _ => .unknown) 0 "./b" none
  rw [hdirectory, hpath] at himports
  exact ⟨m, hleads, hdirectory, himports⟩

end Moment

/-- The module `main` calls a function of `lib/a` that imports `b`. -/
def askedForByCall : List Path :=
  let texts : SourceTexts := { entries := [
    (⟨"lib/a.crv"⟩, "fun f() \x7b import \"./b\"; \x7d"),
    (⟨"lib/b.crv"⟩, "x = 1;"),
    (⟨"b.crv"⟩, "x = 2;")] }
  (evaluateSource (engine {} texts.loader 5) ⟨"main"⟩ "import \"./lib/a\"; a.f();" none
    .initial).2.loads.toList

/-- The import in the function finds what stands beside `main`, and not what stands beside
`lib/a`. -/
theorem function_imports_beside_caller : askedForByCall = [⟨"lib/a.crv"⟩, ⟨"b.crv"⟩] := by
  decide +kernel

end Classlet
