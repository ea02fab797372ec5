import Classlet.Proofs.Scope.Archive

/-! # Sessions with an environment

A client asks an environment for contexts, scopes and closures, and for variables in them.  It
names what it got by number: contexts and closures in the order in which they were made, scopes in
the order in which they were pushed.  A `Session` remembers what the numbers stand for, so that
the same requests can be put to different environments, whatever slots these choose.

`Session.Permits` is the discipline that the interpreter keeps.  It is stated on a session with an
`Archive`, where a name never comes to stand for something else:

* contexts that are used are opened and not released, or belong to a closure that is not dropped;
* scopes are pushed and popped, and contexts released, only where the context was opened;
* a pop names the innermost scope;
* a context is released when its base is left alone and no live context has it as parent.

A context is live from its making until nothing needs it any more (`Session.Live`).  Dropped
closures are reclaimed with the next allocation, until then they count as needed. -/

namespace Classlet

/-- The operations of an environment of variables. -/
structure Environment (σ : Type) where
  newContext : σ → Option ContextId → Except ScopeFault (ContextId × σ)
  releaseContext : σ → ContextId → Except ScopeFault σ
  pushScope : σ → ContextId → ScopeId × σ
  popScope : σ → ContextId → ScopeId → Except ScopeFault σ
  capture : σ → ContextId → Except ScopeFault (ContextId × σ)
  dropClosure : σ → ContextId → σ
  assign : σ → ContextId → String → Value → Except BindFault σ
  define : σ → ContextId → String → Value → Except BindFault σ
  defineShared : σ → ContextId → String → Value → Except BindFault σ
  lookup : σ → ContextId → String → Except Cause Value
  baseBindings : σ → ContextId → Bindings Value
  scopeCount : σ → ContextId → Nat

/-- The environment of the interpreter, which reuses slots. -/
def Store.environment : Environment Store where
  newContext s parent := (s.scopes.newContext parent).map fun (c, a) => (c, { s with scopes := a })
  releaseContext s c := (s.scopes.releaseContext c).map fun a => { s with scopes := a }
  pushScope s c :=
    let (scope, a) := s.scopes.pushScope c
    (scope, { s with scopes := a })
  popScope s c scope := (s.scopes.popScope c scope).map fun a => { s with scopes := a }
  capture s c := (s.scopes.capture c).map fun (k, a) => (k, { s with scopes := a })
  dropClosure s c := { s with scopes := s.scopes.dropClosure c }
  assign := Store.assign
  define := Store.define
  defineShared := Store.defineShared
  lookup := Store.lookup
  baseBindings s c := s.scopes.baseBindings c
  scopeCount s c := s.scopes.scopeCount c

/-- The environment that gives nothing up. -/
def Archive.environment : Environment Archive where
  newContext a parent := .ok (a.newContext parent)
  releaseContext a _ := .ok a
  pushScope := Archive.pushScope
  popScope := Archive.popScope
  capture a c := .ok (a.capture c)
  dropClosure a _ := a
  assign := Archive.assign
  define := Archive.define
  defineShared := Archive.defineShared
  lookup := Archive.lookup
  baseBindings := Archive.baseBindings
  scopeCount := Archive.scopeCount

/-! ### Requests -/

/-- What a context is named by. -/
inductive Handle where
  /-- The context made by the `n`-th `newContext`. -/
  | opened (n : Nat)
  /-- The context of the closure made by the `n`-th `capture`. -/
  | closure (n : Nat)
  deriving Repr, DecidableEq

/-- What a client asks for. -/
inductive Request where
  | newContext (parent : Option Handle)
  | releaseContext (context : Nat)
  | pushScope (context : Nat)
  | popScope (context scope : Nat)
  | capture (context : Handle)
  | dropClosure (closure : Nat)
  | assign (context : Handle) (name : String) (v : Value)
  | define (context : Handle) (name : String) (v : Value)
  | defineShared (context : Handle) (name : String) (v : Value)
  | get (context : Handle) (name : String)
  | baseBindings (context : Handle)
  | scopeCount (context : Handle)

/-- What a client is told. -/
inductive Answer where
  | done
  | value (v : Value)
  | failed (c : Cause)
  | bindings (b : Bindings Value)
  | count (n : Nat)

/-- An environment in use by a client. -/
structure Session (σ : Type) where
  state : σ
  /-- The contexts that were opened. -/
  contexts : List ContextId := []
  /-- The contexts of the closures that were made. -/
  closures : List ContextId := []
  /-- The scopes that were pushed. -/
  scopes : List ScopeId := []
  /-- The numbers of the contexts that are not released. -/
  opened : List Nat := []
  /-- The numbers of the closures that are not dropped. -/
  held : List Nat := []
  /-- The numbers of the closures dropped since the last allocation, the one dropped last first. -/
  queued : List Nat := []

namespace Session

variable {σ : Type}

/-- The context that was opened under a number. -/
def openedAt (s : Session σ) (n : Nat) : ContextId := s.contexts.getD n ⟨0⟩

/-- The context of the closure with a number. -/
def closureAt (s : Session σ) (n : Nat) : ContextId := s.closures.getD n ⟨0⟩

/-- The scope that was pushed under a number. -/
def scopeAt (s : Session σ) (n : Nat) : ScopeId := s.scopes.getD n ⟨0⟩

def context (s : Session σ) : Handle → ContextId
  | .opened n => s.openedAt n
  | .closure n => s.closureAt n

/-- The answer to a request that binds a name. -/
def bound (s : Session σ) : Except BindFault σ → Except ScopeFault (Answer × Session σ)
  | .ok state => .ok (.done, { s with state := state })
  | .error (.cause c) => .ok (.failed c, s)
  | .error (.unbalanced fault) => .error fault

/-- The answer to a look-up. -/
def found : Except Cause Value → Answer
  | .ok v => .value v
  | .error c => .failed c

/-- A context was opened.  What was dropped before is reclaimed. -/
def addContext (s : Session σ) (c : ContextId) (state : σ) : Session σ :=
  { s with
    state := state
    contexts := s.contexts ++ [c]
    opened := s.contexts.length :: s.opened
    queued := [] }

/-- A closure was made.  What was dropped before is reclaimed. -/
def addClosure (s : Session σ) (c : ContextId) (state : σ) : Session σ :=
  { s with
    state := state
    closures := s.closures ++ [c]
    held := s.closures.length :: s.held
    queued := [] }

def addScope (s : Session σ) (scope : ScopeId) (state : σ) : Session σ :=
  { s with state := state, scopes := s.scopes ++ [scope] }

def closeContext (s : Session σ) (n : Nat) (state : σ) : Session σ :=
  { s with state := state, opened := s.opened.erase n }

def queueClosure (s : Session σ) (n : Nat) (state : σ) : Session σ :=
  { s with state := state, held := s.held.erase n, queued := n :: s.queued }

/-- Put a request to an environment. -/
def step (E : Environment σ) (s : Session σ) : Request → Except ScopeFault (Answer × Session σ)
  | .newContext parent =>
    (E.newContext s.state (parent.map s.context)).map fun (c, state) =>
      (.done, s.addContext c state)
  | .releaseContext n =>
    (E.releaseContext s.state (s.openedAt n)).map fun state => (.done, s.closeContext n state)
  | .pushScope n =>
    let (scope, state) := E.pushScope s.state (s.openedAt n)
    .ok (.done, s.addScope scope state)
  | .popScope n k =>
    (E.popScope s.state (s.openedAt n) (s.scopeAt k)).map fun state =>
      (.done, { s with state := state })
  | .capture h =>
    (E.capture s.state (s.context h)).map fun (c, state) => (.done, s.addClosure c state)
  | .dropClosure n =>
    .ok (.done, s.queueClosure n (E.dropClosure s.state (s.closureAt n)))
  | .assign h name v => s.bound (E.assign s.state (s.context h) name v)
  | .define h name v => s.bound (E.define s.state (s.context h) name v)
  | .defineShared h name v => s.bound (E.defineShared s.state (s.context h) name v)
  | .get h name => .ok (found (E.lookup s.state (s.context h) name), s)
  | .baseBindings h => .ok (.bindings (E.baseBindings s.state (s.context h)), s)
  | .scopeCount h => .ok (.count (E.scopeCount s.state (s.context h)), s)

/-- Put requests to an environment in order. -/
def run (E : Environment σ) : Session σ → List Request →
    Except ScopeFault (List Answer × Session σ)
  | s, [] => .ok ([], s)
  | s, r :: rs =>
    match s.step E r with
    | .error fault => .error fault
    | .ok (answer, s) => (run E s rs).map fun (answers, s) => (answer :: answers, s)

/-! ### The discipline -/

/-- Whether a client may use a context. -/
def Usable (s : Session σ) : Handle → Prop
  | .opened n => n ∈ s.opened
  | .closure n => n ∈ s.held

/-- The contexts that are needed: opened and not released, or of a closure that is not dropped or
not reclaimed, or the parent of a context that is needed. -/
inductive Live (s : Session Archive) : ContextId → Prop
  | opened {n : Nat} : n ∈ s.opened → Live s (s.openedAt n)
  | closure {n : Nat} : n ∈ s.queued ++ s.held → Live s (s.closureAt n)
  | parent {c p : ContextId} : Live s c → (s.state.chain c).parent = some p → Live s p

/-- Whether the discipline permits a request. -/
def Permits (s : Session Archive) : Request → Prop
  | .newContext parent => ∀ h, parent = some h → s.Usable h
  | .releaseContext n =>
    n ∈ s.opened ∧ (s.state.chain (s.openedAt n)).scopes.length = 1 ∧
      ∀ c, s.Live c → (s.state.chain c).parent ≠ some (s.openedAt n)
  | .pushScope n => n ∈ s.opened
  | .popScope n k =>
    n ∈ s.opened ∧ k < s.scopes.length ∧
      (s.state.chain (s.openedAt n)).scopes.head? = some (s.scopeAt k)
  | .capture h => s.Usable h
  | .dropClosure n => n ∈ s.held
  | .assign h _ _ | .define h _ _ | .defineShared h _ _ => s.Usable h
  | .get h _ | .baseBindings h | .scopeCount h => s.Usable h

/-- Whether the discipline permits every one of some requests when its turn comes. -/
def Disciplined (s : Session Archive) : List Request → Prop
  | [] => True
  | r :: rs => s.Permits r ∧ ∀ answer s', s.step Archive.environment r = .ok (answer, s') →
      Disciplined s' rs

end Session

end Classlet
