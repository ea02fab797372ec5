import Classlet.Scope.Store
import Classlet.Memory.Display
import Classlet.Text.Blank
import Classlet.Settings
import Classlet.Source

/-! # The state of a run

`State` is all that a running program can change.  `Eval α` is a computation on it that ends with a
value, with an error of the program, or by being stopped from outside: when its budget is used up,
when a source text is needed that has not been read yet, or when there can be no room for what is
asked for.  The state is kept however the computation ends.

References to functions are not counted.  A `schedule` says what nothing refers to any more when
scopes are about to be given up: those functions are `gone`, and their closures are dropped.  What
holds of every schedule holds of the one that counting references gives.  A schedule that lets go of
a function before it is called is no such schedule, and the call is `stale`.

`Engine` holds the operations that call back into the evaluator.  The rules of the evaluator are
written over an engine, and `Classlet.Interpreter` builds the engines. -/

namespace Classlet

/-- The scope name of the top level of a module. -/
def moduleScope : String := "<module>"

/-- The code that is running: the top level of a module, or the body of a function. -/
structure Activation where
  context : ContextId
  unit : SourceUnit
  /-- The name that traces give to the code. -/
  scope : String
  module : Option ModuleRef
  deriving Inhabited

/-- All that a running program can change. -/
structure State extends Store where
  /-- The context of the global names. -/
  root : ContextId
  /-- The modules that have run, by their path. -/
  cache : List (Path × ModuleRef) := []
  activation : Activation
  /-- The nesting of activations. -/
  depth : Nat := 0
  /-- The trace of the last error that left a module. -/
  lastTrace : List TraceFrame := []
  /-- What has been printed. -/
  output : String := ""
  /-- The paths that were asked from the loader. -/
  loads : Array Path := #[]
  /-- The functions that nothing refers to any more. -/
  gone : List FunctionRef := []
  /-- What nothing refers to any more when scopes are given up next, and what at the times after. -/
  schedule : List (List FunctionRef) := []
  deriving Inhabited

/-! ### Dropped closures -/

/-- The context that a value captures, if it is a function. -/
def Memory.closure? (m : Memory) : Value → Option ContextId
  | .function r => (m.function? r).map (·.closure)
  | _ => none

namespace State

/-- Let go of a function: its closure is dropped. -/
def letGo (s : State) (r : FunctionRef) : State :=
  match s.memory.function? r with
  | some f =>
    if s.gone.contains r then s
    else { s with gone := r :: s.gone, scopes := s.scopes.dropClosure f.closure }
  | none => s

/-- Let go of what the schedule says. -/
def lettingGo (s : State) : State :=
  match s.schedule with
  | [] => s
  | now :: later => now.foldl letGo { s with schedule := later }

/-- Release the contexts of dropped closures, the one dropped last first.  Each release can free
values, and more closures are dropped then. -/
def reclaimFrom : List (List FunctionRef) → State → Except ScopeFault State
  | [], s => s.scopes.reclaim.map fun scopes => { s with scopes := scopes, schedule := [] }
  | now :: later, s =>
    match s.scopes.dropped with
    | [] => .ok { s with schedule := now :: later }
    | c :: rest =>
      let s := now.foldl letGo { s with scopes := { s.scopes with dropped := rest } }
      match s.scopes.release c s.memory.closure? with
      | .ok scopes => reclaimFrom later { s with scopes := scopes }
      | .error fault => .error fault

/-- Release the contexts of the closures dropped since the last allocation. -/
def reclaim (s : State) : Except ScopeFault State :=
  reclaimFrom s.lettingGo.schedule s.lettingGo

/-- Take the innermost scope off the stack of a context. -/
def dropScope (s : State) (c : ContextId) (scope : ScopeId) : State :=
  let s := s.lettingGo
  { s with scopes := s.scopes.dropScope c scope s.memory.closure? }

/-- Give up a context of which only the base scope is left. -/
def releaseContext (s : State) (c : ContextId) : Except ScopeFault State :=
  let s := s.lettingGo
  (s.scopes.releaseContext c s.memory.closure?).map fun scopes => { s with scopes := scopes }

end State

/-- Why a computation was stopped from outside. -/
inductive Stop where
  | outOfFuel
  | unbalanced (fault : ScopeFault)
  /-- A source text has to be read first. -/
  | needs (path : Path)
  /-- More room is asked for than there are addresses. -/
  | capacityOverflow
  /-- A function is called that the schedule has let go of. -/
  | stale
  deriving Repr, DecidableEq

/-- How a computation ends. -/
inductive Outcome (α : Type) where
  | ok (value : α)
  | raised (error : RuntimeError)
  | stopped (why : Stop)

/-- A computation of a running program. -/
def Eval (α : Type) : Type := State → Outcome α × State

namespace Eval

variable {α β : Type}

@[always_inline, inline] protected def pure (a : α) : Eval α := fun s => (.ok a, s)

/-- Compute `x`, then what it calls for. -/
@[always_inline, inline] protected def bind (x : Eval α) (f : α → Eval β) : Eval β := fun s =>
  match x s with
  | (.ok a, s) => f a s
  | (.raised e, s) => (.raised e, s)
  | (.stopped why, s) => (.stopped why, s)

@[always_inline] instance : Monad Eval where
  pure := Eval.pure
  bind := Eval.bind

@[simp] theorem pure_apply (a : α) (s : State) : (pure a : Eval α) s = (.ok a, s) := rfl

@[simp] theorem bind_apply (x : Eval α) (f : α → Eval β) (s : State) :
    (x >>= f) s = match x s with
      | (.ok a, s) => f a s
      | (.raised e, s) => (.raised e, s)
      | (.stopped why, s) => (.stopped why, s) := rfl

/-- Raise an error of the runtime. -/
def fail (c : Cause) : Eval α := fun s => (.raised (.ofCause c), s)

def raise (e : RuntimeError) : Eval α := fun s => (.raised e, s)

def stop (why : Stop) : Eval α := fun s => (.stopped why, s)

@[inline] def read (f : State → α) : Eval α := fun s => (.ok (f s), s)

@[inline] def readMemory (f : Memory → α) : Eval α := fun s => (.ok (f s.memory), s)

@[inline] def remember (f : Memory → α × Memory) : Eval α := fun s =>
  let (a, memory) := f s.memory
  (.ok a, { s with memory := memory })

@[inline] def modify (f : State → State) : Eval Unit := fun s => (.ok (), f s)

def ofExcept : Except Cause α → Eval α
  | .ok a => pure a
  | .error c => fail c

/-- Fail with a cause that shows the type of a value. -/
def failWithType (v : Value) (c : String → Cause) : Eval α := fun s =>
  fail (c (s.memory.typeName v)) s

/-- Change the store at the scope that a rule finds. -/
@[inline] def bindAt (place : Store → Except BindFault ScopeId) (f : Store → ScopeId → Store) :
    Eval Unit := fun s =>
  match place s.toStore with
  | .ok scope => (.ok (), { s with toStore := f s.toStore scope })
  | .error (.cause c) => (.raised (.ofCause c), s)
  | .error (.unbalanced fault) => (.stopped (.unbalanced fault), s)

/-- Rebind a name of a context, or bind it in the innermost scope. -/
def assign (c : ContextId) (name : String) (v : Value) : Eval Unit :=
  bindAt (fun s => s.place c name v) fun s scope => s.bindCopy scope name v

/-- Bind a name in the innermost scope of a context. -/
def define (c : ContextId) (name : String) (v : Value) : Eval Unit :=
  bindAt (fun s => s.newPlace c name) fun s scope => s.bindCopy scope name v

/-- Bind a name in the innermost scope of a context without copying. -/
def defineShared (c : ContextId) (name : String) (v : Value) : Eval Unit :=
  bindAt (fun s => s.newPlace c name) fun s scope => s.bindShared scope name v

/-- The value that is bound when `v` is bound. -/
def copied (v : Value) : Eval Value := remember fun m => m.copyForBinding v

/-! ### Scopes -/

/-- The context of the code that is running. -/
def context : Eval ContextId := read fun s => s.activation.context

/-- Reclaim what dropped closures held, as every allocation does first. -/
def reclaim : Eval Unit := fun s =>
  match s.reclaim with
  | .ok s => (.ok (), s)
  | .error fault => (.stopped (.unbalanced fault), s)

def pushScope (c : ContextId) : Eval ScopeId := fun s =>
  let (scope, scopes) := s.scopes.pushScope c
  (.ok scope, { s with scopes := scopes })

/-- Pop a scope, however `x` ends. -/
@[inline] def poppingScope (c : ContextId) (scope : ScopeId) (x : Eval α) : Eval α := fun s =>
  match x s with
  | (outcome, s) =>
    match s.scopes.popFault? c scope with
    | none => (outcome, s.dropScope c scope)
    | some fault => (.stopped (.unbalanced fault), s)

/-- Run `x` in a new scope of the current context. -/
def inNewScope (x : Eval α) : Eval α := do
  let c ← context
  let scope ← pushScope c
  poppingScope c scope x

/-- Run `x` and give up a context, however `x` ends.  A run that fails to has no scopes left. -/
@[inline] def releasing (c : ContextId) (x : Eval α) : Eval α := fun s =>
  match x s with
  | (outcome, s) =>
    match s.releaseContext c with
    | .ok s => (outcome, s)
    | .error fault => (.stopped (.unbalanced fault), { s with scopes := {} })

/-- Run `x` as a new activation, one level deeper. -/
@[inline] def withActivation (activation : Activation) (x : Eval α) : Eval α := fun s =>
  let saved := s.activation
  let depth := s.depth
  match x { s with activation := activation, depth := depth + 1 } with
  | (outcome, s) => (outcome, { s with activation := saved, depth := depth })

end Eval

/-! ### Engines -/

/-- The operations that call back into the evaluator. -/
structure Engine where
  settings : Settings
  loader : Loader
  /-- A bound on the passes of a loop. -/
  passes : Nat
  /-- Call a value; the flag says that the first argument is the receiver of a method. -/
  call : Value → Bool → List Value → KeywordValues → Eval Value
  /-- Apply a binary operator to elements of sequences. -/
  binary : BinaryOp → Value → Value → Eval Value
  /-- The text that shows an element of a sequence. -/
  repr : Value → Eval String
  /-- Import a module from another one. -/
  importModule : ImportPath → Option ModuleRef → Eval ModuleRef

/-- Call a class member with its receiver. -/
def Engine.callMethod (e : Engine) (method receiver : Value) (arguments : List Value) :
    Eval Value :=
  e.call method true (receiver :: arguments) []

/-- The line of a source text without the blanks around it, counted from one. -/
def SourceUnit.line? (u : SourceUnit) (line : UInt32) : Option String :=
  match u.source, line.toNat with
  | some source, n + 1 => (Text.lines source)[n]?.map Text.trim
  | _, _ => none

/-- What a trace says about a statement of the running code. -/
def State.traceFrame (s : State) (statement : Statement) : TraceFrame :=
  { file := s.activation.unit.name
    line := statement.line
    source := (s.activation.unit.line? statement.line).getD statement.print
    scope := s.activation.scope }

end Classlet
