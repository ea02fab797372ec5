import Classlet.Interpreter.Call
import Classlet.Interpreter.Module

/-! # The interpreter

`engine` ties the rules of the evaluator together.  An engine of fuel `n + 1` calls back into the
engine of fuel `n`, so that fuel bounds the nesting of calls, of imports and of elements, and the
passes of a loop.  Running out of it is an outcome of its own and never looks like an answer of a
program. -/

namespace Classlet

/-- The engine that has used up its fuel. -/
def spentEngine (settings : Settings) (loader : Loader) : Engine :=
  { settings := settings
    loader := loader
    passes := 0
    call := fun _ _ _ _ => Eval.stop .outOfFuel
    binary := fun _ _ _ => Eval.stop .outOfFuel
    repr := fun _ => Eval.stop .outOfFuel
    importModule := fun _ _ => Eval.stop .outOfFuel }

def engine (settings : Settings) (loader : Loader) : Nat → Engine
  | 0 => spentEngine settings loader
  | fuel + 1 =>
    { settings := settings
      loader := loader
      passes := fuel + 1
      call := fun callee hasReceiver arguments keywords =>
        callValue (engine settings loader fuel) callee hasReceiver arguments keywords
      binary := fun op left right => binaryOperation (engine settings loader fuel) op left right
      repr := fun v => reprOperation (engine settings loader fuel) v
      importModule := fun target parent =>
        Classlet.importModule (engine settings loader fuel) target parent }

/-! ### The initial state -/

/-- Bind global names in a context. -/
def Store.defineAll (s : Store) (c : ContextId) : List (String × Value) → Store
  | [] => s
  | (name, v) :: more =>
    match s.define c name v with
    | .ok s => s.defineAll c more
    | .error _ => s.defineAll c more

/-- The global names: the built-in classes and functions. -/
def globals (m : Memory) : List (String × Value) :=
  m.globalClasses.map (fun c => (m.className c, .ofClass c)) ++
    Builtin.all.map fun f => (f.name, .builtin f)

/-- The state before anything has run. -/
def State.initial : State :=
  let memory := Memory.initial
  let (root, scopes) := ({} : Arena Value).openContext none
  let store : Store := { memory := memory, scopes := scopes }
  { toStore := store.defineAll root (globals memory)
    root := root
    activation :=
      { context := root, unit := ⟨"<prelude>", none⟩, scope := moduleScope, module := none } }

/-- The value of a name as seen from the top level of a module. -/
def lookupIn (r : ModuleRef) (name : String) : Eval Value := fun s =>
  match s.toStore.lookup (s.memory.moduleInfo r).context name with
  | .ok v => (.ok v, s)
  | .error c => Eval.fail c s

end Classlet
